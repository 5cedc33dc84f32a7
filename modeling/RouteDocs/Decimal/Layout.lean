import RouteDocs.Decimal.Digits
import RouteDocs.Decimal.Shortest

/-!
# The text of a double

The digits of a finite double are those of its shortest decimal. A `Layout` holds the decisions that
are left: the spelling of the exponent and of the numbers that are not finite.

## Main definitions

* `Decimal.Layout`, `Decimal.floatText`.
-/

namespace RouteDocs.Decimal

/-- How a double is written. -/
structure Layout where
  /-- Whether a positive exponent has a plus sign. -/
  exponentPlus : Bool
  nan : List Char
  infinite : List Char

/-- A decimal with a point. The digits are `ds`, and the first of them has exponent `top`. The point
stands among the digits if `-5 ≤ top ≤ 15`; otherwise an exponent follows. -/
def positiveText (layout : Layout) (ds : List Char) (top : Int) : List Char :=
  if top < -5 || 15 < top then
    let mantissa :=
      match ds with
      | d :: e :: r => d :: '.' :: e :: r
      | _ => ds
    mantissa ++ 'e' :: ((if layout.exponentPlus && 0 ≤ top then ['+'] else []) ++ integer top)
  else if top < 0 then
    '0' :: '.' :: (List.replicate (-top - 1).toNat '0' ++ ds)
  else
    let whole := top.toNat + 1
    let fraction := ds.drop whole
    ds.take whole ++ List.replicate (whole - ds.length) '0' ++
      '.' :: (if fraction.isEmpty then ['0'] else fraction)

/-- A sign in front of a text, if the number is negative. -/
def signed (negative : Bool) (s : List Char) : List Char := if negative then '-' :: s else s

/-- The text of a double. -/
def floatText (layout : Layout) (x : Float) : List Char :=
  match Class.ofFloat x with
  | .nan => layout.nan
  | .infinite negative => signed negative layout.infinite
  | .zero negative => signed negative ['0', '.', '0']
  | .finite negative value =>
    let s := shortest value
    let ds := digits s.digits
    signed negative (positiveText layout ds (s.exponent + ds.length - 1))

end RouteDocs.Decimal
