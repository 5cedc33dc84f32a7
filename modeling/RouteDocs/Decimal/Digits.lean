/-!
# Decimal digits

## Main definitions

* `Decimal.digits`: a natural number in decimal digits.
* `Decimal.ofDigits`: the number that digits of some base stand for.
* `Decimal.digitValue?`: the value of a digit of base 16 or less.
* `Decimal.hexDigit`: the digit of base 16 with a given value, in lower case.
-/

namespace RouteDocs.Decimal

/-- A digit of ASCII. -/
def isDigit (c : Char) : Bool := '0' ≤ c && c ≤ '9'

/-- The decimal digit of `d < 10`. -/
def digit (d : Nat) : Char := Char.ofNat (48 + d)

/-- A natural number in decimal digits, without leading zeros. -/
def digits (n : Nat) : List Char :=
  if n < 10 then [digit n] else digits (n / 10) ++ [digit (n % 10)]

/-- The value of a digit of base 16 or less, in either case. -/
def digitValue? (c : Char) : Option Nat :=
  let n := c.toNat
  if 48 ≤ n && n ≤ 57 then some (n - 48)
  else if 97 ≤ n && n ≤ 102 then some (n - 87)
  else if 65 ≤ n && n ≤ 70 then some (n - 55)
  else none

/-- The number that digits stand for; `none` if one of them is no digit of the base. -/
def ofDigits? (base : Nat) (ds : List Char) : Option Nat :=
  ds.foldl (fun acc c => do
    let n ← acc
    let d ← digitValue? c
    if d < base then some (n * base + d) else none) (some 0)

/-- The digit of base 16 with value `d < 16`, in lower case. -/
def hexDigit (d : Nat) : Char := if d < 10 then digit d else Char.ofNat (87 + d)

/-- A whole number, with a sign if it is negative. -/
def integer (n : Int) : List Char :=
  if n < 0 then '-' :: digits n.natAbs else digits n.natAbs

end RouteDocs.Decimal
