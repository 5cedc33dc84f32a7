import RouteDocs.Data.Number

/-!
# YAML values

## Main definitions

* `Yaml.Value`: a value. A mapping is a list of entries in the order of their first appearance.
* `Value.same`: whether two values count as one key.
* `Yaml.Entries`: the entries of a mapping, with `get?`, `insert`, `erase` and `addNew`.
-/

namespace RouteDocs.Yaml

/-- A YAML value. -/
inductive Value where
  | null
  | bool (b : Bool)
  | number (n : Number)
  | string (s : String)
  | sequence (items : List Value)
  | mapping (entries : List (Value × Value))
  | tagged (tag : String) (value : Value)

/-- The entries of a mapping. -/
abbrev Entries := List (Value × Value)

/-- A tag without the indicator in front, unless it is nothing else. -/
def tagName (tag : List Char) : List Char :=
  match tag with
  | '!' :: c :: s => c :: s
  | s => s

namespace Value

mutual

/-- Two values count as one key: they are equal, where the order of the entries of a mapping does
not matter and numbers are compared by `Number.sameValue`. -/
def same : Value → Value → Bool
  | .null, .null => true
  | .bool a, .bool b => a == b
  | .number m, .number n => m.sameValue n
  | .string s, .string t => s == t
  | .sequence xs, .sequence ys => sameItems xs ys
  | .mapping es, .mapping fs => es.length == fs.length && sameEntries es fs
  | .tagged s x, .tagged t y => tagName s.toList == tagName t.toList && same x y
  | _, _ => false

def sameItems : List Value → List Value → Bool
  | [], [] => true
  | x :: xs, y :: ys => same x y && sameItems xs ys
  | _, _ => false

/-- Every entry of the first mapping is in the second. -/
def sameEntries : Entries → Entries → Bool
  | [], _ => true
  | (k, x) :: es, fs => fs.any (fun (l, y) => same k l && same x y) && sameEntries es fs

end

end Value

/-- The value is null, with or without tags. -/
def Value.isNull : Value → Bool
  | .null => true
  | .tagged _ v => isNull v
  | _ => false

namespace Entries

/-- The value at a key. -/
def get? (es : Entries) (k : Value) : Option Value := (es.find? (·.1.same k)).map (·.2)

/-- The value at a string. -/
def field? (es : Entries) (name : String) : Option Value := es.get? (.string name)

/-- Sets the value at a key, which keeps its place if it was there before. -/
def insert (es : Entries) (k x : Value) : Entries :=
  match es with
  | [] => [(k, x)]
  | (l, y) :: fs => if l.same k then (l, x) :: fs else (l, y) :: insert fs k x

/-- Takes out the entry at a key. The last entry takes its place. -/
def erase (es : Entries) (k : Value) : Entries :=
  match es with
  | [] => []
  | (l, y) :: fs =>
    if l.same k then
      match fs.getLast? with
      | none => []
      | some e => e :: fs.dropLast
    else (l, y) :: erase fs k

/-- Adds the entries of the second mapping whose keys the first does not have. -/
def addNew (es fs : Entries) : Entries :=
  fs.foldl (fun es (k, x) => if es.any (·.1.same k) then es else es ++ [(k, x)]) es

/-- The mapping with given entries; of equal keys the first keeps its place and the last its value.
-/
def ofList (fs : List (Value × Value)) : Entries := fs.foldl (fun es (k, x) => es.insert k x) []

end Entries

end RouteDocs.Yaml
