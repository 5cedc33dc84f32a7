import RouteDocs.Json.Basic

/-!
# Writing JSON

Members and items stand on lines of their own, four spaces further in than what holds them. Empty
arrays and objects are written without a line break.

## Main definitions

* `Json.quote`: a string in quotes.
* `Json.pretty`: the text of a value.
-/

namespace RouteDocs.Json

/-- A positive exponent has a plus sign; what is not finite is no number. -/
def numberLayout : Decimal.Layout := ⟨true, ['n', 'u', 'l', 'l'], ['n', 'u', 'l', 'l']⟩

/-- A character inside a string. Quotes, backslashes and control characters are escaped. -/
def escape (c : Char) : List Char :=
  if c = '"' then ['\\', '"']
  else if c = '\\' then ['\\', '\\']
  else if c = '\n' then ['\\', 'n']
  else if c = '\r' then ['\\', 'r']
  else if c = '\t' then ['\\', 't']
  else if c = '\x08' then ['\\', 'b']
  else if c = '\x0c' then ['\\', 'f']
  else if c.toNat < 32 then
    ['\\', 'u', '0', '0', Decimal.hexDigit (c.toNat / 16), Decimal.hexDigit (c.toNat % 16)]
  else [c]

/-- A string in quotes. -/
def quote (s : String) : List Char := '"' :: (s.toList.flatMap escape ++ ['"'])

/-- A line break, and the indentation of the next line. -/
def newline (depth : Nat) : List Char := '\n' :: List.replicate (4 * depth) ' '

mutual

/-- The text of a value inside `depth` arrays and objects. -/
def pretty (depth : Nat) : Json → List Char
  | .null => ['n', 'u', 'l', 'l']
  | .bool true => ['t', 'r', 'u', 'e']
  | .bool false => ['f', 'a', 'l', 's', 'e']
  | .number n => n.text numberLayout
  | .string s => quote s
  | .array [] => ['[', ']']
  | .array (item :: items) =>
    '[' :: (newline (depth + 1) ++ pretty (depth + 1) item ++ prettyItems (depth + 1) items ++
      newline depth ++ [']'])
  | .object [] => ['{', '}']
  | .object ((key, value) :: members) =>
    '{' :: (newline (depth + 1) ++ quote key ++ ':' :: ' ' :: pretty (depth + 1) value ++
      prettyMembers (depth + 1) members ++ newline depth ++ ['}'])

/-- The items after the first, each on a new line. -/
def prettyItems (depth : Nat) : List Json → List Char
  | [] => []
  | item :: items => ',' :: (newline depth ++ pretty depth item ++ prettyItems depth items)

/-- The members after the first, each on a new line. -/
def prettyMembers (depth : Nat) : List (String × Json) → List Char
  | [] => []
  | (key, value) :: members =>
    ',' :: (newline depth ++ quote key ++ ':' :: ' ' :: pretty depth value ++
      prettyMembers depth members)

end

/-- The text of a value. -/
def print (j : Json) : String := String.ofList (pretty 0 j)

end RouteDocs.Json
