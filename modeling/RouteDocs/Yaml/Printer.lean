import RouteDocs.Text.Lines
import RouteDocs.Yaml.Printer.Scalar

/-!
# Writing YAML

Mappings and sequences are written as blocks, two spaces further in than what holds them; only empty
ones are written with brackets. A sequence under a key is not indented. A collection that is an item
starts on the line of its hyphen.

## Main definitions

* `Value.isSimpleKey`: whether a key is written in front of its colon, without a question mark.
* `Value.body`: the text of a value after the indicator in front of it.
* `Value.print?`: the text of a value.
-/

namespace RouteDocs.Yaml

open Text (byteLength)

/-- There is no plus sign in an exponent, and what is not finite starts with a point. -/
def numberLayout : Decimal.Layout := ⟨false, ['.', 'n', 'a', 'n'], ['.', 'i', 'n', 'f']⟩

/-! ## Tags -/

/-- The octets of a character in UTF-8. -/
def octets (c : Char) : List Nat := (String.singleton c).toUTF8.toList.map UInt8.toNat

/-- A character of a tag; those that a tag cannot hold are written as escaped octets. -/
def escapeTag (c : Char) : List Char :=
  if isWord c || ";/?:@&=+$,.~*'()[]".toList.contains c then [c]
  else (octets c).flatMap fun n => '%' :: hexDigits 2 n

/-- A tag. The one without a name is written in angle brackets. -/
def tagText (tag : String) : List Char :=
  let name := tagName tag.toList
  if name = ['!'] then ['!', '<', '%', '2', '1', '>'] else '!' :: name.flatMap escapeTag

/-- The length of a tag, with its indicator. -/
def tagLength (tag : String) : Nat :=
  let name := tagName tag.toList
  if name = ['!'] then 1 else 1 + byteLength name

namespace Value

/-! ## Keys -/

/-- The number of characters of a value that is written on one line, if it is. -/
def keyLength? : Value → Option Nat
  | .null => some 4
  | .bool b => some (if b then 4 else 5)
  | .number n => some (n.text numberLayout).length
  | .string s => if hasBreak s.toList then none else some (byteLength s.toList)
  | .sequence [] => some 0
  | .mapping [] => some 0
  | .tagged tag v => (keyLength? v).map (tagLength tag + ·)
  | _ => none

/-- A key that is short enough and on one line stands in front of its colon. -/
def isSimpleKey (v : Value) : Bool := v.keyLength?.any (· ≤ 128)

/-- A key in front of its colon. -/
def simpleKey : Value → List Char
  | .null => "null".toList
  | .bool b => if b then "true".toList else "false".toList
  | .number n => n.text numberLayout
  | .string s => keyText s.toList
  | .sequence _ => ['[', ']']
  | .mapping _ => ['{', '}']
  | .tagged tag v => tagText tag ++ ' ' :: simpleKey v

/-! ## Values -/

/-- The way to the first entry of a block: on the same line, or on a new one. -/
def lead (compact : Bool) (indent : Nat) : List Char :=
  if compact then [' '] else '\n' :: spaces indent

mutual

/-- A value after the indicator in front of it, up to the end of its last line. It is in a
collection at column `indent`. If `compact` holds, a block starts on the same line. If `inMapping`
holds, it is a key or a value, and a sequence that starts on a new line is not indented. -/
def body (indent : Nat) (compact inMapping : Bool) : Value → List Char
  | .null => " null\n".toList
  | .bool b => if b then " true\n".toList else " false\n".toList
  | .number n => ' ' :: (n.text numberLayout ++ ['\n'])
  | .string s => ' ' :: stringLine (indent + 2) s.toList
  | .sequence items =>
    if items.isEmpty then [' ', '[', ']', '\n']
    else
      let column := if inMapping && !compact then indent else indent + 2
      lead compact column ++ itemLines column true items
  | .mapping es =>
    if es.isEmpty then [' ', '{', '}', '\n']
    else lead compact (indent + 2) ++ entryLines (indent + 2) true es
  | .tagged tag v => ' ' :: (tagText tag ++ body indent false inMapping v)

/-- The items of a block sequence at a column. The first one stands there already. -/
def itemLines (column : Nat) (first : Bool) : List Value → List Char
  | [] => []
  | x :: xs =>
    (if first then [] else spaces column) ++ '-' :: (body column true false x ++
      itemLines column false xs)

/-- The entries of a block mapping at a column. The first one stands there already. -/
def entryLines (column : Nat) (first : Bool) : List (Value × Value) → List Char
  | [] => []
  | (k, x) :: es =>
    (if first then [] else spaces column) ++
      (if k.isSimpleKey then simpleKey k ++ ':' :: body column false true x
        else '?' :: (body column true true k ++ spaces column ++ ':' :: body column true true x)) ++
      entryLines column false es

end

/-! ## Documents -/

/-- A tag directly inside a tag cannot be written, and neither can a mapping with one entry whose
key is tagged or a mapping with one entry, unless a tag stands in front of it. -/
def isOpenKey : Value → Bool
  | .tagged _ _ => true
  | .mapping [_] => true
  | _ => false

mutual

/-- The value can be written. Under a tag `inTag` holds. -/
def isWritable (inTag : Bool) : Value → Bool
  | .sequence items => itemsWritable items
  | .mapping [(k, x)] => (inTag || !k.isOpenKey) && isWritable false k && isWritable false x
  | .mapping es => entriesWritable es
  | .tagged _ v => !inTag && isWritable true v
  | _ => true

def itemsWritable : List Value → Bool
  | [] => true
  | x :: xs => isWritable false x && itemsWritable xs

def entriesWritable : List (Value × Value) → Bool
  | [] => true
  | (k, x) :: es => isWritable false k && isWritable false x && entriesWritable es

end

/-- A value as a document. -/
def document : Value → List Char
  | .sequence (x :: xs) => itemLines 0 true (x :: xs)
  | .mapping (e :: es) => entryLines 0 true (e :: es)
  | .tagged tag (.mapping (e :: es)) => tagText tag ++ '\n' :: entryLines 0 true (e :: es)
  | .tagged tag (.sequence (x :: xs)) => tagText tag ++ '\n' :: itemLines 0 true (x :: xs)
  | v => (body 0 true false v).drop 1

/-- The text of a value, if it can be written. -/
def print? (v : Value) : Option String :=
  if v.isWritable false then some (String.ofList v.document) else none

end Value

end RouteDocs.Yaml
