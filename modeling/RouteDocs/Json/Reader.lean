import RouteDocs.Json.Basic
import RouteDocs.Json.Raw

/-!
# The value of JSON text

A number without fraction and exponent is a whole number if it fits 64 bits. Every other number is a
double: its digits, as many as fit 64 bits, are rounded to a double, and that is multiplied or
divided by a power of ten. So the double is not always the nearest one.

## Main definitions

* `RawNumber.value?`, `RawString.value?`.
* `RawJson.value`: the value of a text with at most a given nesting.
* `Json.read?`: reads a value.
-/

namespace RouteDocs

open Decimal

namespace RawNumber

/-- The largest number of 64 bits. -/
def limit : Nat := 0xFFFFFFFFFFFFFFFF

/-- Appends digits to a number as long as it fits 64 bits. Gives the number and how many digits were
left over. -/
def accumulate (n : Nat) : List Char → Nat × Nat
  | [] => (n, 0)
  | d :: ds =>
    let m := n * 10 + (digitValue? d).getD 0
    if limit < m then (n, ds.length + 1) else accumulate m ds

/-- The power of ten with exponent at most 308. -/
def power (e : Nat) : Float := Float.ofScientific 1 false e

/-- Multiplies or divides by a power of ten; `none` if the result is too large. -/
def shift? (x : Float) (e : Int) : Option Float :=
  if e.natAbs ≤ 308 then
    if 0 ≤ e then
      let y := x * power e.natAbs
      if y.isInf then none else some y
    else some (x / power e.natAbs)
  else if x == 0 then some x
  else if 0 ≤ e then none
  else shift? (x / power 308) (e + 308)
termination_by e.natAbs

/-- The double that digits and an exponent give. An exponent beyond 31 bits makes everything but
zero too large or zero. -/
def double? (n : Nat) (e : Int) : Option (Bool × List Char) → Option Float
  | none => shift? (Float.ofNat n) e
  | some (negative, ds) =>
    let x := (ofDigits? 10 ds).getD 0
    if 0x80000000 ≤ x then if n ≠ 0 && !negative then none else some 0
    else shift? (Float.ofNat n) (e + if negative then -(x : Int) else x)

/-- The value of a number; `none` if it is too large. Minus zero is a double. -/
def value? (r : RawNumber) : Option Number :=
  let (n, left) := accumulate 0 r.whole
  let sign (x : Float) : Number := .float (if r.negative then -x else x)
  match r.fraction, r.exponent with
  | none, none =>
    let whole? := if left = 0 && !(r.negative && n = 0) then
      Whole.ofInt? (if r.negative then -(n : Int) else n) else none
    match whole? with
    | some w => some (.whole w)
    | none => (double? n left none).map sign
  | fraction, exponent =>
    let ds := fraction.getD []
    let (m, dropped) := accumulate n ds
    (double? m (left - (ds.length - dropped : Nat)) exponent).map sign

end RawNumber

namespace RawString

/-- The value of a string; `none` if it has half of a surrogate pair. -/
def value? : RawString → Option (List Char)
  | [] => some []
  | .char c :: r => (value? r).map (c :: ·)
  | .unit n :: r =>
    if 0xD800 ≤ n && n < 0xDC00 then
      match r with
      | .unit m :: r =>
        if 0xDC00 ≤ m && m < 0xE000 then
          (value? r).map (Char.ofNat (0x10000 + (n - 0xD800) * 0x400 + (m - 0xDC00)) :: ·)
        else none
      | _ => none
    else if 0xDC00 ≤ n && n < 0xE000 then none
    else (value? r).map (Char.ofNat n :: ·)

end RawString

namespace RawJson

mutual

/-- The value of a text that nests less than `depth` arrays and objects. -/
def value : (depth : Nat) → RawJson → Option Json
  | _, .null => some .null
  | _, .bool b => some (.bool b)
  | _, .number n => n.value?.map .number
  | _, .string s => (RawString.value? s).map fun s => .string (String.ofList s)
  | depth, .array items => if depth ≤ 1 then none else (itemValues (depth - 1) items).map .array
  | depth, .object members =>
    if depth ≤ 1 then none else (memberValues (depth - 1) members).map .ofMembers

/-- The values of items. -/
def itemValues : (depth : Nat) → List RawJson → Option (List Json)
  | _, [] => some []
  | depth, item :: items => do
    let item ← value depth item
    let items ← itemValues depth items
    return item :: items

/-- The values of members. -/
def memberValues : (depth : Nat) → List (RawString × RawJson) → Option (List (String × Json))
  | _, [] => some []
  | depth, (key, item) :: members => do
    let key ← RawString.value? key
    let item ← value depth item
    let members ← memberValues depth members
    return (String.ofList key, item) :: members

end

/-- Arrays and objects nest less deep than this. -/
def depthLimit : Nat := 128

end RawJson

/-- Reads a value. -/
def Json.read? (text : List Char) : Option Json :=
  (RawJson.read? text).bind (RawJson.value RawJson.depthLimit)

end RouteDocs
