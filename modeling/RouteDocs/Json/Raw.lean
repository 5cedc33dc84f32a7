import RouteDocs.Decimal.Digits

/-!
# JSON text

The grammar of JSON, without the meaning of its numbers and strings: a number keeps its digits and a
string its escapes. Whether they have a value is another question, and not always asked.

## Main definitions

* `RawNumber`, `RawString`, `RawJson`: the grammar.
* `RawJson.read?`: reads a text that holds one value.
-/

namespace RouteDocs

/-- A number as it is written. -/
structure RawNumber where
  negative : Bool
  /-- The digits in front of the point; a zero in front stands alone. -/
  whole : List Char
  /-- The digits after the point, if there is one. -/
  fraction : Option (List Char)
  /-- The sign and the digits of the exponent, if there is one. -/
  exponent : Option (Bool × List Char)

/-- An element of a string. -/
inductive RawChar where
  | char (c : Char)
  /-- An escape of four hexadecimal digits. -/
  | unit (n : Nat)

/-- A string as it is written. -/
abbrev RawString := List RawChar

/-- A value as it is written. -/
inductive RawJson where
  | null
  | bool (b : Bool)
  | number (n : RawNumber)
  | string (s : RawString)
  | array (items : List RawJson)
  | object (members : List (RawString × RawJson))

namespace RawJson

open Decimal

/-- Drops the white space of JSON. -/
def skip (s : List Char) : List Char :=
  s.dropWhile fun c => c == ' ' || c == '\n' || c == '\t' || c == '\r'

/-- The digits in front of a text, of which there has to be one. -/
def digits? (s : List Char) : Option (List Char × List Char) :=
  let ds := s.takeWhile isDigit
  if ds.isEmpty then none else some (ds, s.dropWhile isDigit)

/-- The fraction of a number, if it has one. -/
def fraction? : List Char → Option (Option (List Char) × List Char)
  | '.' :: s => do
    let (ds, s) ← digits? s
    return (some ds, s)
  | s => some (none, s)

/-- The exponent of a number, if it has one. -/
def exponent? : List Char → Option (Option (Bool × List Char) × List Char)
  | [] => some (none, [])
  | c :: s =>
    if c = 'e' || c = 'E' then do
      let (negative, s) :=
        match s with
        | '+' :: s => (false, s)
        | '-' :: s => (true, s)
        | s => (false, s)
      let (ds, s) ← digits? s
      return (some (negative, ds), s)
    else some (none, c :: s)

/-- A number without its sign. -/
def number? (negative : Bool) (s : List Char) : Option (RawNumber × List Char) := do
  let (whole, s) ← digits? s
  guard (whole.head? != some '0' || whole.length = 1)
  let (fraction, s) ← fraction? s
  let (exponent, s) ← exponent? s
  return (⟨negative, whole, fraction, exponent⟩, s)

/-- The character that a one-letter escape stands for. -/
def shortEscape? : Char → Option Char
  | '"' => some '"'
  | '\\' => some '\\'
  | '/' => some '/'
  | 'b' => some '\x08'
  | 'f' => some '\x0c'
  | 'n' => some '\n'
  | 'r' => some '\r'
  | 't' => some '\t'
  | _ => none

/-- The rest of a string, up to its closing quote. -/
def string? : List Char → Option (RawString × List Char)
  | [] => none
  | '"' :: s => some ([], s)
  | '\\' :: 'u' :: a :: b :: c :: d :: s => do
    let n ← ofDigits? 16 [a, b, c, d]
    let (r, s) ← string? s
    return (.unit n :: r, s)
  | '\\' :: e :: s => do
    let c ← shortEscape? e
    let (r, s) ← string? s
    return (.char c :: r, s)
  | c :: s =>
    if c.toNat < 32 then none
    else do
      let (r, s) ← string? s
      return (.char c :: r, s)

/-- A fixed word. -/
def word? (w : List Char) (j : RawJson) (s : List Char) : Option (RawJson × List Char) :=
  if w.isPrefixOf s then some (j, s.drop w.length) else none

mutual

/-- The value in front of a text. -/
def value? : (fuel : Nat) → List Char → Option (RawJson × List Char)
  | 0, _ => none
  | fuel + 1, s =>
    match skip s with
    | '"' :: s => (string? s).map fun (r, s) => (.string r, s)
    | '[' :: s =>
      match skip s with
      | ']' :: s => some (.array [], s)
      | s => (items? fuel s).map fun (items, s) => (.array items, s)
    | '{' :: s =>
      match skip s with
      | '}' :: s => some (.object [], s)
      | s => (members? fuel s).map fun (members, s) => (.object members, s)
    | '-' :: s => (number? true s).map fun (n, s) => (.number n, s)
    | 'n' :: s => word? ['u', 'l', 'l'] .null s
    | 't' :: s => word? ['r', 'u', 'e'] (.bool true) s
    | 'f' :: s => word? ['a', 'l', 's', 'e'] (.bool false) s
    | s => (number? false s).map fun (n, s) => (.number n, s)

/-- The items of an array, up to its closing bracket. -/
def items? : (fuel : Nat) → List Char → Option (List RawJson × List Char)
  | 0, _ => none
  | fuel + 1, s => do
    let (item, s) ← value? fuel s
    match skip s with
    | ',' :: s =>
      let (items, s) ← items? fuel s
      return (item :: items, s)
    | ']' :: s => return ([item], s)
    | _ => none

/-- The members of an object, up to its closing brace. -/
def members? : (fuel : Nat) → List Char → Option (List (RawString × RawJson) × List Char)
  | 0, _ => none
  | fuel + 1, s => do
    let (key, s) ←
      match skip s with
      | '"' :: s => string? s
      | _ => none
    let s ←
      match skip s with
      | ':' :: s => some s
      | _ => none
    let (value, s) ← value? fuel s
    match skip s with
    | ',' :: s =>
      let (members, s) ← members? fuel s
      return ((key, value) :: members, s)
    | '}' :: s => return ([(key, value)], s)
    | _ => none

end

/-- A text that holds one value and white space. Each step into a value or to the next member takes
a character, so the length of the text bounds them. -/
def read? (text : List Char) : Option RawJson := do
  let (j, s) ← value? (2 * text.length + 2) text
  guard (skip s).isEmpty
  return j

end RawJson

end RouteDocs
