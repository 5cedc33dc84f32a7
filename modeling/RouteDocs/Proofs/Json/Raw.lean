import Mathlib.Data.Option.Basic
import RouteDocs.Json.Printer
import RouteDocs.Json.Raw
import RouteDocs.Proofs.Decimal
import RouteDocs.Proofs.Json.Basic
import RouteDocs.Proofs.Text

/-!
# The grammar of printed JSON

## Main definitions

* `RawChar.ofChar`, `RawNumber.ofWhole`, `RawJson.ofJson`: how characters, whole numbers and values
  are written.
* `EndsValue`: what may follow a value inside another one.

## Main statements

* `RawJson.string?_quote`, `RawJson.readsBack`: a printed string or value is read as it was
  written, and nothing after it is taken.
* `RawJson.read?_print`: the same for a whole text.
-/

namespace RouteDocs

open Decimal

/-- The way a character is written inside a string: control characters without an escape of their
own are written by their code. -/
def RawChar.ofChar (c : Char) : RawChar :=
  if c.toNat < 32 ∧ c ∉ ['\n', '\r', '\t', '\x08', '\x0c'] then .unit c.toNat else .char c

/-- The way a whole number is written. -/
def RawNumber.ofWhole (n : Whole) : RawNumber :=
  ⟨n.val < 0, digits n.val.natAbs, none, none⟩

/-- The way a string is written. -/
def RawString.ofString (s : String) : RawString := s.toList.map RawChar.ofChar

namespace RawJson

mutual

/-- The way a value without doubles is written. -/
def ofJson : Json → RawJson
  | .null => .null
  | .bool b => .bool b
  | .number (.whole n) => .number (.ofWhole n)
  | .number (.float _) => .null
  | .string s => .string (.ofString s)
  | .array items => .array (ofItems items)
  | .object members => .object (ofMembers members)

def ofItems : List Json → List RawJson
  | [] => []
  | x :: items => ofJson x :: ofItems items

def ofMembers : List (String × Json) → List (RawString × RawJson)
  | [] => []
  | (k, x) :: members => (.ofString k, ofJson x) :: ofMembers members

end

theorem ofItems_eq_map (items : List Json) : ofItems items = items.map ofJson := by
  induction items with
  | nil => rfl
  | cons x items ih => simp [ofItems, ih]

theorem ofMembers_eq_map (members : List (String × Json)) :
    ofMembers members = members.map fun m => (RawString.ofString m.1, ofJson m.2) := by
  induction members with
  | nil => rfl
  | cons m members ih => simp [ofMembers, ih]

/-! ## Strings -/

theorem digitValue?_hexDigit {d : Nat} (h : d < 16) : digitValue? (hexDigit d) = some d :=
  (by decide : ∀ d < 16, digitValue? (hexDigit d) = some d) d h

theorem ofDigits?_hexDigit {n : Nat} (h : n < 256) :
    ofDigits? 16 ['0', '0', hexDigit (n / 16), hexDigit (n % 16)] = some n := by
  have hhigh := digitValue?_hexDigit (Nat.div_lt_of_lt_mul (show n < 16 * 16 from h))
  have hlow := digitValue?_hexDigit (Nat.mod_lt n (by decide : 16 > 0))
  have hzero : ofDigits? 16 ['0', '0'] = some 0 := by decide
  have hfirst := ofDigits?_append_singleton hzero hhigh (by omega)
  have hboth := ofDigits?_append_singleton hfirst hlow (by omega)
  simp only [List.cons_append, List.nil_append] at hboth
  rw [hboth]
  congr 1
  omega

theorem string?_shortEscape {e c : Char} (h : shortEscape? e = some c) (s : List Char) :
    string? ('\\' :: e :: s) = (string? s).map fun r => (.char c :: r.1, r.2) := by
  have hu : e ≠ 'u' := by
    rintro rfl
    simp [shortEscape?] at h
  rw [string?, h]
  · cases string? s <;> rfl
  · intro a b c d t hu'
    exact absurd hu' hu

theorem string?_escape (c : Char) (s : List Char) :
    string? (Json.escape c ++ s) = (string? s).map fun r => (.ofChar c :: r.1, r.2) := by
  by_cases hshort : c ∈ ['"', '\\', '\n', '\r', '\t', '\x08', '\x0c']
  · simp only [List.mem_cons, List.not_mem_nil, or_false] at hshort
    rcases hshort with rfl | rfl | rfl | rfl | rfl | rfl | rfl <;>
      exact string?_shortEscape (by decide) s
  · obtain ⟨hquote, hslash, hcontrol⟩ : c ≠ '"' ∧ c ≠ '\\' ∧
        c ∉ ['\n', '\r', '\t', '\x08', '\x0c'] := by
      simpa using hshort
    simp only [List.mem_cons, List.not_mem_nil, or_false, not_or] at hcontrol
    by_cases hlt : c.toNat < 32
    · have hescape : Json.escape c =
          ['\\', 'u', '0', '0', hexDigit (c.toNat / 16), hexDigit (c.toNat % 16)] := by
        simp [Json.escape, hquote, hslash, hcontrol, hlt]
      simp only [hescape, List.cons_append, List.nil_append]
      rw [string?, ofDigits?_hexDigit (by omega)]
      cases string? s <;> simp [RawChar.ofChar, hlt, hcontrol]
    · have hescape : Json.escape c = [c] := by
        simp [Json.escape, hquote, hslash, hcontrol, hlt]
      simp only [hescape, List.cons_append, List.nil_append]
      rw [string?, if_neg hlt]
      · cases string? s <;> simp [RawChar.ofChar, hlt]
      all_goals simp [hquote, hslash]

/-- A string in quotes is read up to its closing quote. -/
theorem string?_quote (s : String) (rest : List Char) :
    ∃ t, Json.quote s ++ rest = '"' :: t ∧ string? t = some (.ofString s, rest) := by
  refine ⟨s.toList.flatMap Json.escape ++ '"' :: rest, by simp [Json.quote], ?_⟩
  rw [RawString.ofString]
  induction s.toList with
  | nil => rw [List.flatMap_nil, List.nil_append, string?, List.map_nil]
  | cons c cs ih => simp [string?_escape, ih]

/-! ## Numbers -/

/-- What may follow a value: nothing, a comma or a line break. -/
def EndsValue (rest : List Char) : Prop := ∀ c ∈ rest.head?, c = ',' ∨ c = '\n'

theorem digits?_digits (n : Nat) {rest : List Char} (h : EndsValue rest) :
    digits? (digits n ++ rest) = some (digits n, rest) := by
  have hall : ∀ c ∈ digits n, isDigit c = true := fun c hc => isDigit_of_mem_digits hc
  have hrest : ∀ c ∈ rest.head?, isDigit c = false := by
    intro c hc
    rcases h c hc with rfl | rfl <;> decide
  rw [digits?, Text.takeWhile_append_of_all hall hrest, Text.dropWhile_append_of_all hall hrest]
  simp

theorem number?_digits (negative : Bool) (n : Nat) {rest : List Char} (h : EndsValue rest) :
    number? negative (digits n ++ rest) = some (⟨negative, digits n, none, none⟩, rest) := by
  have hzero : ¬(digits n).head? = some '0' ∨ (digits n).length = 1 := by
    by_cases hn : n < 10
    · simp [digits_of_lt hn]
    · exact .inl (head?_digits_ne_zero (Nat.le_of_not_lt hn))
  have hend : fraction? rest = some (none, rest) ∧ exponent? rest = some (none, rest) := by
    cases rest with
    | nil => exact ⟨rfl, rfl⟩
    | cons c rest => rcases h c rfl with rfl | rfl <;> exact ⟨rfl, rfl⟩
  simp [number?, digits?_digits n h, hzero, hend, guard]

theorem skip_digit {c : Char} (h : isDigit c = true) (s : List Char) : skip (c :: s) = c :: s := by
  apply List.dropWhile_cons_of_neg
  intro hblank
  simp only [Bool.or_eq_true, beq_iff_eq] at hblank
  rcases hblank with ((rfl | rfl) | rfl) | rfl <;> cases h

theorem value?_integer (fuel : Nat) (n : Whole) {rest : List Char} (h : EndsValue rest) :
    value? (fuel + 1) (integer n.val ++ rest) = some (.number (.ofWhole n), rest) := by
  rcases Int.lt_or_le n.val 0 with hneg | hnonneg
  · rw [integer_of_neg hneg, List.cons_append, value?]
    simp [skip, number?_digits true _ h, RawNumber.ofWhole, hneg]
  · rw [integer_of_nonneg hnonneg]
    obtain ⟨c, cs, hcs⟩ := List.exists_cons_of_ne_nil (digits_ne_nil n.val.natAbs)
    have hc : isDigit c = true := isDigit_of_mem_digits (n := n.val.natAbs) (by simp [hcs])
    have hnumber := number?_digits false n.val.natAbs h
    have hsign : ¬n.val < 0 := by omega
    rw [hcs, List.cons_append] at hnumber ⊢
    rw [value?, skip_digit hc]
    -- no other kind of value starts with a digit
    split
    case h_8 => simp [hnumber, RawNumber.ofWhole, hsign, hcs]
    all_goals
      rename_i heq
      cases heq
      cases hc

/-! ## Values -/

@[simp] theorem skip_newline (depth : Nat) (s : List Char) :
    skip (Json.newline depth ++ s) = skip s := by
  rw [Json.newline, List.cons_append, skip, List.dropWhile_cons_of_pos (by decide),
    List.dropWhile_append_of_pos]
  · rfl
  · intro c hc
    obtain rfl := List.eq_of_mem_replicate hc
    rfl

theorem value?_congr {s t : List Char} (h : skip s = skip t) (fuel : Nat) :
    value? fuel s = value? fuel t := by
  cases fuel with
  | zero => rfl
  | succ fuel => rw [value?, value?, h]

/-- The value is read wherever it is printed, if the fuel is as long as the text. -/
def ReadsBack (j : Json) : Prop :=
  ∀ fuel depth rest, (Json.pretty depth j).length ≤ fuel → EndsValue rest →
    value? fuel (Json.pretty depth j ++ rest) = some (ofJson j, rest)

theorem endsValue_newline (depth : Nat) (s : List Char) : EndsValue (Json.newline depth ++ s) := by
  simp [EndsValue, Json.newline]

theorem endsValue_comma (s : List Char) : EndsValue (',' :: s) := by
  simp [EndsValue]

theorem endsValue_prettyItems (depth outer : Nat) (items : List Json) (s : List Char) :
    EndsValue (Json.prettyItems depth items ++ (Json.newline outer ++ s)) := by
  cases items with
  | nil => exact endsValue_newline outer s
  | cons x items => exact endsValue_comma _

/-- The characters that hold a value together are no white space. -/
theorem skip_mark {c : Char} (h : c ∈ [',', ':', ']', '}', '"']) (s : List Char) :
    skip (c :: s) = c :: s := by
  simp only [List.mem_cons, List.not_mem_nil, or_false] at h
  rcases h with rfl | rfl | rfl | rfl | rfl <;> rfl

theorem items?_pretty {x : Json} {items : List Json} (hx : ReadsBack x)
    (hitems : ∀ y ∈ items, ReadsBack y) (depth outer : Nat) {fuel : Nat} {rest : List Char}
    (hfuel : (Json.pretty depth x).length + (Json.prettyItems depth items).length < fuel) :
    items? fuel (Json.newline depth ++ (Json.pretty depth x ++ (Json.prettyItems depth items ++
      (Json.newline outer ++ ']' :: rest)))) = some (ofItems (x :: items), rest) := by
  induction items generalizing x fuel with
  | nil =>
    obtain ⟨fuel, rfl⟩ := Nat.exists_eq_add_one_of_ne_zero (Nat.ne_zero_of_lt hfuel)
    have hend := endsValue_prettyItems depth outer [] (']' :: rest)
    have hread := hx fuel depth _ (by omega) hend
    rw [items?, value?_congr (skip_newline _ _), hread]
    simp [Json.prettyItems, skip_mark, ofItems]
  | cons y items ih =>
    obtain ⟨fuel, rfl⟩ := Nat.exists_eq_add_one_of_ne_zero (Nat.ne_zero_of_lt hfuel)
    simp only [Json.prettyItems, List.length_cons, List.length_append] at hfuel
    have hend := endsValue_prettyItems depth outer (y :: items) (']' :: rest)
    have hread := hx fuel depth _ (by omega) hend
    have hrest : items? fuel _ = some (ofItems (y :: items), rest) :=
      ih (hitems y List.mem_cons_self) (fun z hz => hitems z (List.mem_cons_of_mem _ hz)) (by omega)
    rw [items?, value?_congr (skip_newline _ _), hread]
    simp [Json.prettyItems, skip_mark, ofItems, hrest]

theorem endsValue_prettyMembers (depth outer : Nat) (members : List (String × Json))
    (s : List Char) : EndsValue (Json.prettyMembers depth members ++ (Json.newline outer ++ s)) := by
  cases members with
  | nil => exact endsValue_newline outer s
  | cons m members => exact endsValue_comma _

/-- A member is read, and then what stands in front of the next one or at the end. -/
theorem members?_member {k : String} {x : Json} (hx : ReadsBack x) {fuel depth : Nat}
    {rest : List Char} (hfuel : (Json.pretty depth x).length ≤ fuel) (hrest : EndsValue rest) :
    members? (fuel + 1) (Json.newline depth ++ (Json.quote k ++ (':' :: ' ' ::
      (Json.pretty depth x ++ rest)))) =
      match skip rest with
      | ',' :: s =>
        (members? fuel s).map fun r => ((RawString.ofString k, ofJson x) :: r.1, r.2)
      | '}' :: s => some ([(RawString.ofString k, ofJson x)], s)
      | _ => none := by
  obtain ⟨t, ht, hkey⟩ := string?_quote k (':' :: ' ' :: (Json.pretty depth x ++ rest))
  have hspace : skip (' ' :: (Json.pretty depth x ++ rest)) = skip (Json.pretty depth x ++ rest) :=
    rfl
  have hread := (value?_congr hspace fuel).trans (hx fuel depth rest hfuel hrest)
  rw [members?, skip_newline, ht, skip_mark (by simp)]
  simp only [hkey, Option.bind_eq_bind, Option.bind_some, skip_mark (c := ':') (by simp), hread]
  cases skip rest with
  | nil => rfl
  | cons c s =>
    by_cases hcomma : c = ','
    · subst hcomma
      show (members? fuel s).bind _ = (members? fuel s).map _
      cases members? fuel s <;> rfl
    · by_cases hclose : c = '}'
      · subst hclose
        rfl
      · simp [hcomma, hclose]

theorem members?_pretty {k : String} {x : Json} {members : List (String × Json)}
    (hx : ReadsBack x) (hmembers : ∀ m ∈ members, ReadsBack m.2) (depth outer : Nat) {fuel : Nat}
    {rest : List Char}
    (hfuel : (Json.pretty depth x).length + (Json.prettyMembers depth members).length < fuel) :
    members? fuel (Json.newline depth ++ (Json.quote k ++ (':' :: ' ' :: (Json.pretty depth x ++
      (Json.prettyMembers depth members ++ (Json.newline outer ++ '}' :: rest)))))) =
      some (ofMembers ((k, x) :: members), rest) := by
  induction members generalizing k x fuel with
  | nil =>
    obtain ⟨fuel, rfl⟩ := Nat.exists_eq_add_one_of_ne_zero (Nat.ne_zero_of_lt hfuel)
    rw [members?_member hx (by omega) (endsValue_prettyMembers _ _ _ _)]
    simp [Json.prettyMembers, skip_mark, ofMembers]
  | cons m members ih =>
    obtain ⟨fuel, rfl⟩ := Nat.exists_eq_add_one_of_ne_zero (Nat.ne_zero_of_lt hfuel)
    simp only [Json.prettyMembers, List.length_cons, List.length_append] at hfuel
    have hrest : members? fuel _ = some (ofMembers (m :: members), rest) :=
      ih (hmembers m List.mem_cons_self) (fun y hy => hmembers y (List.mem_cons_of_mem _ hy))
        (by omega)
    rw [members?_member hx (by omega) (endsValue_prettyMembers _ _ _ _)]
    simp [Json.prettyMembers, skip_mark, ofMembers, hrest]

/-- The text of a value starts neither with white space nor with a closing bracket. -/
theorem exists_pretty_eq_cons {j : Json} (hfree : j.IsFloatFree) (depth : Nat) :
    ∃ c s, Json.pretty depth j = c :: s ∧ c ≠ ']' ∧ ∀ t, skip (c :: t) = c :: t := by
  cases j with
  | null => exact ⟨_, _, rfl, by decide, fun _ => rfl⟩
  | bool b => cases b <;> exact ⟨_, _, rfl, by decide, fun _ => rfl⟩
  | number n =>
    cases n with
    | float x => simp [Json.IsFloatFree, Json.Everywhere, Json.NotFloat] at hfree
    | whole n =>
      rcases Int.lt_or_le n.val 0 with hneg | hnonneg
      · exact ⟨_, _, integer_of_neg hneg, by decide, fun _ => rfl⟩
      · obtain ⟨c, cs, hcs⟩ := List.exists_cons_of_ne_nil (digits_ne_nil n.val.natAbs)
        have hc : isDigit c = true := isDigit_of_mem_digits (n := n.val.natAbs) (by simp [hcs])
        refine ⟨c, cs, (integer_of_nonneg hnonneg).trans hcs, ?_, skip_digit hc⟩
        rintro rfl
        cases hc
  | string s => exact ⟨_, _, rfl, by decide, fun _ => rfl⟩
  | array items => cases items <;> exact ⟨_, _, rfl, by decide, fun _ => rfl⟩
  | object members => cases members <;> exact ⟨_, _, rfl, by decide, fun _ => rfl⟩

theorem items?_congr {s t : List Char} (h : skip s = skip t) (fuel : Nat) :
    items? fuel s = items? fuel t := by
  cases fuel with
  | zero => rfl
  | succ fuel => rw [items?, items?, value?_congr h]

theorem skip_skip (s : List Char) : skip (skip s) = skip s := by
  induction s with
  | nil => rfl
  | cons c s ih =>
    rw [skip] at ih ⊢
    by_cases hc : (c == ' ' || c == '\n' || c == '\t' || c == '\r') = true
    · simpa [skip, hc] using ih
    · simp [skip, hc]

/-- An array that is not closed at once has items. -/
theorem value?_array (fuel : Nat) {s : List Char} (hs : ∀ t, skip s ≠ ']' :: t) :
    value? (fuel + 1) ('[' :: s) = (items? fuel s).map fun r => (.array r.1, r.2) := by
  have hopen : skip ('[' :: s) = '[' :: s := rfl
  rw [value?, hopen]
  simp only
  rw [items?_congr (skip_skip s)]

/-- An object that is not closed at once has members. -/
theorem value?_object (fuel : Nat) {s : List Char} (hs : ∀ t, skip s ≠ '}' :: t) :
    value? (fuel + 1) ('{' :: s) = (members? fuel s).map fun r => (.object r.1, r.2) := by
  have hopen : skip ('{' :: s) = '{' :: s := rfl
  have hcongr : members? fuel (skip s) = members? fuel s := by
    cases fuel with
    | zero => rfl
    | succ fuel => rw [members?, members?, skip_skip]
  rw [value?, hopen]
  simp only
  rw [hcongr]

/-- Every value without doubles is read wherever it is printed. -/
theorem readsBack {j : Json} (hfree : j.IsFloatFree) : ReadsBack j := by
  induction j using Json.induction with
  | null =>
    intro fuel depth rest hfuel _
    obtain ⟨fuel, rfl⟩ := Nat.exists_eq_add_one.2 (Nat.zero_lt_of_lt hfuel)
    simp [Json.pretty, value?, skip, word?, ofJson]
  | bool b =>
    intro fuel depth rest hfuel _
    cases b <;>
      obtain ⟨fuel, rfl⟩ := Nat.exists_eq_add_one.2 (Nat.zero_lt_of_lt hfuel) <;>
      simp [Json.pretty, value?, skip, word?, ofJson]
  | number n =>
    intro fuel depth rest hfuel hrest
    cases n with
    | float x => simp [Json.IsFloatFree, Json.Everywhere, Json.NotFloat] at hfree
    | whole n =>
      have hpos : 0 < (integer n.val).length := List.length_pos_iff.2 (integer_ne_nil _)
      obtain ⟨fuel, rfl⟩ := Nat.exists_eq_add_one.2 (Nat.lt_of_lt_of_le hpos hfuel)
      exact value?_integer fuel n hrest
  | string s =>
    intro fuel depth rest hfuel _
    obtain ⟨fuel, rfl⟩ := Nat.exists_eq_add_one.2 (Nat.zero_lt_of_lt hfuel)
    obtain ⟨t, ht, hread⟩ := string?_quote s rest
    rw [Json.pretty, ht, value?, skip_mark (by simp)]
    simp [hread, ofJson]
  | array items ih =>
    have hitems := Json.isFloatFree_array_iff.1 hfree
    intro fuel depth rest hfuel hrest
    cases items with
    | nil =>
      obtain ⟨fuel, rfl⟩ := Nat.exists_eq_add_one.2 (Nat.zero_lt_of_lt hfuel)
      simp [Json.pretty, value?, skip, ofJson, ofItems]
    | cons x items =>
      obtain ⟨fuel, rfl⟩ := Nat.exists_eq_add_one.2 (Nat.zero_lt_of_lt hfuel)
      simp only [Json.pretty, List.length_cons, List.length_append] at hfuel
      have hread : items? fuel _ = some (ofItems (x :: items), rest) :=
        items?_pretty (ih x List.mem_cons_self (hitems x List.mem_cons_self))
          (fun y hy => ih y (List.mem_cons_of_mem _ hy) (hitems y (List.mem_cons_of_mem _ hy)))
          (depth + 1) depth (by omega)
      obtain ⟨c, s, hc, hclose, hskip⟩ :=
        exists_pretty_eq_cons (hitems x List.mem_cons_self) (depth + 1)
      simp only [Json.pretty, List.cons_append, List.append_assoc, List.nil_append]
      rw [value?_array, hread]
      · simp [ofJson]
      · simp [hc, hskip, hclose]
  | object members ih =>
    have hmembers := Json.isFloatFree_object_iff.1 hfree
    intro fuel depth rest hfuel hrest
    cases members with
    | nil =>
      obtain ⟨fuel, rfl⟩ := Nat.exists_eq_add_one.2 (Nat.zero_lt_of_lt hfuel)
      simp [Json.pretty, value?, skip, ofJson, ofMembers]
    | cons m members =>
      obtain ⟨k, x⟩ := m
      obtain ⟨fuel, rfl⟩ := Nat.exists_eq_add_one.2 (Nat.zero_lt_of_lt hfuel)
      simp only [Json.pretty, List.length_cons, List.length_append] at hfuel
      have hread : members? fuel _ = some (ofMembers ((k, x) :: members), rest) :=
        members?_pretty (x := x) (ih (k, x) List.mem_cons_self (hmembers _ List.mem_cons_self))
          (fun m hm => ih m (List.mem_cons_of_mem _ hm) (hmembers m (List.mem_cons_of_mem _ hm)))
          (depth + 1) depth (by omega)
      simp only [Json.pretty, List.cons_append, List.append_assoc, List.nil_append]
      rw [value?_object, hread]
      · simp [ofJson]
      · simp [Json.quote, skip_mark]

/-- Reading a printed text gives the value as it was written. -/
theorem read?_print {j : Json} (hfree : j.IsFloatFree) : read? j.print.toList = some (ofJson j) := by
  have hread := readsBack hfree (2 * (Json.pretty 0 j).length + 2) 0 [] (by omega)
    (by simp [EndsValue])
  rw [List.append_nil] at hread
  rw [read?, Json.print, String.toList_ofList]
  show (value? (2 * (Json.pretty 0 j).length + 2) (Json.pretty 0 j)).bind _ = _
  rw [hread]
  rfl

end RawJson

end RouteDocs
