import RouteDocs.Yaml.Value

/-!
# Merge keys

The key `<<` of a mapping holds a mapping, or a sequence of mappings, whose entries are added to the
mapping unless it has their key. What is added is looked through for merge keys in turn, but an
added merge key itself stays.

## Main definitions

* `Entries.mergeSources?`: the mappings under the merge key.
* `Entries.merged?`: the entries after the merge of one mapping.
* `Value.merge?`: a value after the merges of all its mappings.
-/

namespace RouteDocs.Yaml

/-- The merge key. -/
def mergeKey : Value := .string "<<"

namespace Value

/-- The entries of a mapping. -/
def entries? : Value → Option Entries
  | .mapping es => some es
  | _ => none

mutual

/-- How deep the collections and tags of a value nest. -/
def depth : Value → Nat
  | .sequence items => 1 + itemsDepth items
  | .mapping es => 1 + entriesDepth es
  | .tagged _ v => 1 + depth v
  | _ => 0

def itemsDepth : List Value → Nat
  | [] => 0
  | x :: xs => max (depth x) (itemsDepth xs)

def entriesDepth : List (Value × Value) → Nat
  | [] => 0
  | (k, x) :: es => max (max (depth k) (depth x)) (entriesDepth es)

end

end Value

namespace Entries

/-- The mappings that are to be merged; `none` if the merge key holds something else. -/
def mergeSources? (es : Entries) : Option (List Entries) :=
  match es.get? mergeKey with
  | none => some []
  | some (.mapping fs) => some [fs]
  | some (.sequence items) => items.mapM Value.entries?
  | some _ => none

/-- The entries after the merge: the merge key is taken out, and the new entries of its mappings are
appended in their order. -/
def merged? (es : Entries) : Option Entries :=
  es.mergeSources?.map fun sources => sources.foldl addNew (es.erase mergeKey)

end Entries

namespace Value

/-- Merges the mappings of a value: first a mapping itself, then its values. Its keys stay as they
are. A merge never adds anything deeper than the mapping, so `fuel` need not exceed the depth. -/
def mergeWith? : (fuel : Nat) → Value → Option Value
  | 0, v => some v
  | fuel + 1, .sequence items => (items.mapM (mergeWith? fuel)).map .sequence
  | fuel + 1, .tagged tag v => (mergeWith? fuel v).map (.tagged tag)
  | fuel + 1, .mapping es => do
    let es ← Entries.merged? es
    let es ← es.mapM fun (k, x) => (mergeWith? fuel x).map (k, ·)
    return .mapping es
  | _ + 1, v => some v

/-- A value after the merges of all its mappings; `none` if a merge key holds something that cannot
be merged. -/
def merge? (v : Value) : Option Value := mergeWith? v.depth v

end Value

end RouteDocs.Yaml
