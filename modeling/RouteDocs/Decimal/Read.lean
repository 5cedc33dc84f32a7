import RouteDocs.Decimal.Digits

/-!
# Reading a decimal as the nearest double

## Main definitions

* `Decimal.nearest`: the double nearest to `digits · 10 ^ exponent`.
* `Decimal.readFloat?`: a decimal literal: a sign, digits with at most one point among them, and an
  exponent.
-/

namespace RouteDocs.Decimal

/-- The double nearest to `n · 10 ^ e`. Far outside the range of doubles the answer is infinite or
zero, and the power of ten is not computed. -/
def nearest (n : Nat) (e : Int) : Float :=
  let top : Int := e + (digits n).length
  if n = 0 || top < -400 then 0
  else if 400 < top then 1 / 0
  else if 0 ≤ e then Float.ofScientific n false e.toNat
  else Float.ofScientific n true (-e).toNat

/-- Takes a sign off a text: whether it is a minus, and the rest. -/
def takeSign : List Char → Bool × List Char
  | '+' :: s => (false, s)
  | '-' :: s => (true, s)
  | s => (false, s)

/-- The exponent part of a literal, which may be missing. -/
def exponent? : List Char → Option Int
  | [] => some 0
  | c :: s =>
    if c = 'e' || c = 'E' then
      let (negative, ds) := takeSign s
      if ds.isEmpty then none
      else (ofDigits? 10 ds).map fun n => if negative then -(n : Int) else n
    else none

/-- A decimal literal, as the nearest double; infinite if it is too large. There has to be a digit
on at least one side of the point. -/
def readFloat? (text : List Char) : Option Float := do
  let (negative, s) := takeSign text
  let whole := s.takeWhile isDigit
  let s := s.dropWhile isDigit
  let (fraction, s) :=
    match s with
    | '.' :: s => (s.takeWhile isDigit, s.dropWhile isDigit)
    | _ => ([], s)
  if whole.isEmpty && fraction.isEmpty then none
  let e ← exponent? s
  let n ← ofDigits? 10 (whole ++ fraction)
  let x := nearest n (e - fraction.length)
  return if negative then -x else x

end RouteDocs.Decimal
