import RouteDocs.Decimal.Layout

/-!
# Numbers of documents

A number in a document is a whole number of at most 64 bits, with or without a sign, or a double.

## Main definitions

* `Whole`: the whole numbers from `-2 ^ 63` to `2 ^ 64 - 1`.
* `Number`, `Number.text`.
* `Number.sameValue`: whether two numbers count as one key.
-/

namespace RouteDocs

/-- A whole number that fits 64 bits, with or without a sign. -/
structure Whole where
  val : Int
  neg_two_pow_le : -0x8000000000000000 ≤ val
  lt_two_pow : val < 0x10000000000000000
deriving DecidableEq

/-- The whole number with a given value, if that fits 64 bits. -/
def Whole.ofInt? (n : Int) : Option Whole :=
  if h : -0x8000000000000000 ≤ n ∧ n < 0x10000000000000000 then some ⟨n, h.1, h.2⟩ else none

/-- A number in a document. -/
inductive Number where
  | whole (n : Whole)
  | float (x : Float)

namespace Number

/-- The text of a number: whole numbers in digits, doubles as the layout says. -/
def text (layout : Decimal.Layout) : Number → List Char
  | .whole n => Decimal.integer n.val
  | .float x => Decimal.floatText layout x

/-- A whole number and a double are never the same, the two zeros are, and so are any two numbers
that are undefined. -/
def sameValue : Number → Number → Bool
  | .whole m, .whole n => m = n
  | .float x, .float y => x == y || (x.isNaN && y.isNaN)
  | _, _ => false

/-- Either zero, whole or not. -/
def isZero : Number → Bool
  | .whole n => n.val = 0
  | .float x => x == 0

end Number

end RouteDocs
