import RouteDocs.Decimal.Read
import RouteDocs.Yaml.Value

/-!
# The meaning of plain scalars

A plain scalar is a null, a boolean, a number or a string, by its text alone.

## Main definitions

* `Plain.isNull`, `Plain.bool?`, `Plain.integer?`, `Plain.float?`: the spellings.
* `Plain.value?`: the value of a plain scalar.
-/

namespace RouteDocs.Yaml.Plain

open Decimal (isDigit ofDigits? readFloat?)

/-- The spellings of null. -/
def isNull (s : List Char) : Bool :=
  s == ['~'] || s == "null".toList || s == "Null".toList || s == "NULL".toList

/-- The spellings of the booleans. -/
def bool? (s : List Char) : Option Bool :=
  if s == "true".toList || s == "True".toList || s == "TRUE".toList then some true
  else if s == "false".toList || s == "False".toList || s == "FALSE".toList then some false
  else none

/-- A text without one sign in front. -/
def dropSign : List Char → List Char
  | '+' :: s => s
  | '-' :: s => s
  | s => s

/-- Digits with a zero in front of them are a string, not a number. -/
def hasLeadingZero (s : List Char) : Bool :=
  match dropSign s with
  | '0' :: d :: ds => (d :: ds).all isDigit
  | _ => false

/-- The number of one or more digits. -/
def digits? (base : Nat) (ds : List Char) : Option Nat :=
  if ds.isEmpty then none else ofDigits? base ds

/-- A number without a sign: digits of base 16, 8 or 2 after their mark, or decimal digits. -/
def natural? : List Char → Option Nat
  | '0' :: 'x' :: ds => digits? 16 ds
  | '0' :: 'o' :: ds => digits? 8 ds
  | '0' :: 'b' :: ds => digits? 2 ds
  | ds => digits? 10 ds

/-- A whole number of any size. -/
def integer? (s : List Char) : Option Int :=
  if hasLeadingZero s then none
  else
    match s with
    | '-' :: ds => (natural? ds).map fun n => -(n : Int)
    | '+' :: ds => (natural? ds).map fun n => (n : Int)
    | ds => (natural? ds).map fun n => (n : Int)

/-- A double: a decimal literal that is not too large, or a spelling of what is not finite. -/
def float? (s : List Char) : Option Float :=
  let unsigned :=
    match s with
    | '+' :: '+' :: _ => none
    | '+' :: '-' :: _ => none
    | '+' :: r => some r
    | r => some r
  unsigned.bind fun r =>
    if r == ".inf".toList || r == ".Inf".toList || r == ".INF".toList then some (1 / 0)
    else if s == "-.inf".toList || s == "-.Inf".toList || s == "-.INF".toList then some (-1 / 0)
    else if s == ".nan".toList || s == ".NaN".toList || s == ".NAN".toList then some (0 / 0)
    else (readFloat? r).filter Float.isFinite

/-- The whole numbers that have more than 64 bits but no more than 128. They are refused; still
larger ones are doubles. -/
def isRefused (n : Int) : Bool :=
  (Whole.ofInt? n).isNone && -0x80000000000000000000000000000000 ≤ n &&
    n < 0x100000000000000000000000000000000

/-- The value of a plain scalar; `none` for a number that is refused. -/
def value? (s : List Char) : Option Value :=
  if s.isEmpty || isNull s then some .null
  else
    match bool? s with
    | some b => some (.bool b)
    | none =>
      match integer? s with
      | some n =>
        if isRefused n then none
        else
          match Whole.ofInt? n with
          | some w => some (.number (.whole w))
          | none => some (wide s)
      | none => some (wide s)
where
  /-- A text that is no whole number of at most 128 bits. -/
  wide (s : List Char) : Value :=
    match if hasLeadingZero s then none else float? s with
    | some x => .number (.float x)
    | none => .string (String.ofList s)

end RouteDocs.Yaml.Plain
