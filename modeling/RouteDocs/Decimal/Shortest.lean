/-!
# The shortest decimal of a binary number

A finite double is `± m · 2 ^ q`. The reals that round to it form an interval around it, which
contains its ends exactly if `m` is even. Of the decimals in that interval the shortest is taken,
and of those with equally many digits the one nearest to the number.

## Main definitions

* `Decimal.Binary`: a positive number `m · 2 ^ q` and whether it is the smallest of its binade.
* `Decimal.Class`: the kinds of doubles.
* `Decimal.Scaled`: `digits · 10 ^ exponent`.
* `Decimal.shortest`: the shortest decimal.
-/

namespace RouteDocs.Decimal

/-- The positive number `m · 2 ^ q`. The next smaller double is half as far away as the next larger
one if `narrow` holds. -/
structure Binary where
  m : Nat
  q : Int
  narrow : Bool

/-- The kinds of doubles. -/
inductive Class where
  | nan
  | infinite (negative : Bool)
  | zero (negative : Bool)
  | finite (negative : Bool) (value : Binary)

/-- Takes a double apart: a sign bit, eleven bits of exponent and 52 bits of significand. -/
def Class.ofFloat (x : Float) : Class :=
  let bits := x.toBits.toNat
  let negative := bits >>> 63 == 1
  let exponent : Nat := (bits >>> 52) % 0x800
  let fraction : Nat := bits % 0x10000000000000
  if exponent = 2047 then if fraction = 0 then .infinite negative else .nan
  else if exponent = 0 then
    if fraction = 0 then .zero negative else .finite negative ⟨fraction, -1074, false⟩
  else
    .finite negative ⟨0x10000000000000 + fraction, (exponent : Int) - 1075, fraction = 0 && 1 < exponent⟩

/-- The decimal `digits · 10 ^ exponent`. -/
structure Scaled where
  digits : Nat
  exponent : Int

/-- `n · b ^ e`, as a fraction. -/
def scale (b n : Nat) (e : Int) : Nat × Nat :=
  if 0 ≤ e then (n * Nat.pow b e.toNat, 1) else (n, Nat.pow b (-e).toNat)

/-- Compares `n · 2 ^ q` with `d · 10 ^ e`. -/
def compareScaled (n : Nat) (q : Int) (d : Nat) (e : Int) : Ordering :=
  let (a, b) := scale 2 n q
  let (c, f) := scale 10 d e
  compare (a * f) (c * b)

/-- A decimal that rounds to the number. The bounds are `(4m ± 2) · 2 ^ (q - 2)`, the lower one
`(4m - 1) · 2 ^ (q - 2)` for the smallest number of a binade. -/
def Binary.readsBack (x : Binary) (d : Nat) (e : Int) : Bool :=
  let low := compareScaled (4 * x.m - if x.narrow then 1 else 2) (x.q - 2) d e
  let high := compareScaled (4 * x.m + 2) (x.q - 2) d e
  if x.m % 2 = 0 then low != .gt && high != .lt else low == .lt && high == .gt

/-- The whole part of `m · 2 ^ q / 10 ^ e`. -/
def Binary.floorAt (x : Binary) (e : Int) : Nat :=
  let (a, b) := scale 2 x.m x.q
  let (c, f) := scale 10 1 e
  (a * f) / (b * c)

/-- The decimal nearest to the number among its two neighbours on the grid of step `10 ^ e`, if one
of them rounds to the number. Of two equally near the even one is taken. -/
def Binary.nearestAt? (x : Binary) (e : Int) : Option Nat :=
  let d := x.floorAt e
  let half := compareScaled (2 * x.m) x.q (2 * d + 1) e
  let lower := half == .lt || (half == .eq && d % 2 == 0)
  match x.readsBack d e && 0 < d, x.readsBack (d + 1) e with
  | true, true => some (if lower then d else d + 1)
  | true, false => some d
  | false, true => some (d + 1)
  | false, false => none

/-- The exponent of the leading decimal digit of the number. No double has one outside `-324` to
`308`. -/
def Binary.leading (x : Binary) : Int :=
  ((List.range 633).findSome? fun (i : Nat) =>
    let e : Int := 308 - i
    if compareScaled x.m x.q 1 e != .lt then some e else none).getD (-324)

/-- Moves factors of ten from the digits to the exponent. -/
def Scaled.strip : (fuel : Nat) → Scaled → Scaled
  | 0, s => s
  | fuel + 1, s => if s.digits % 10 = 0 then strip fuel ⟨s.digits / 10, s.exponent + 1⟩ else s

/-- The shortest decimal that rounds to the number. Seventeen digits are enough for any double. -/
def shortest (x : Binary) : Scaled :=
  let top := x.leading
  let found := (List.range 17).findSome? fun (i : Nat) =>
    let e := top - i
    (x.nearestAt? e).map (Scaled.mk · e)
  Scaled.strip 20 (found.getD ⟨x.floorAt (top - 17), top - 17⟩)

end RouteDocs.Decimal
