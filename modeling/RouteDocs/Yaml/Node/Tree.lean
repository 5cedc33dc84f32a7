import RouteDocs.Yaml.Node.Grammar
import RouteDocs.Yaml.Token.Stream

/-!
# Documents with numbered anchors

The anchors of a document are numbered. An anchor gets the number of different names in front of it.
So an anchor whose name was used before gets a number that the next new name gets as well; an alias
with that number stands for the later of the two nodes.

## Main definitions

* `Node.link?`: replaces names by numbers. An alias needs a name in front of it.
* `Yaml.Tree`: a document and the nodes with an anchor.
* `Tree.read?`: the document of a text.
-/

namespace RouteDocs.Yaml

/-- The names of the anchors so far, each with its latest number. -/
abbrev AnchorNames := List (String × Nat)

/-- Numbers an anchor. -/
def AnchorNames.add (names : AnchorNames) (name : String) : AnchorNames :=
  (name, names.length) :: names.filter (·.1 ≠ name)

/-- Numbers the anchor of a node, if it has one. -/
def AnchorNames.number (names : AnchorNames) : Option String → Option Nat × AnchorNames
  | none => (none, names)
  | some name => (some names.length, names.add name)

namespace Node

mutual

/-- Replaces the names of anchors and aliases by numbers. -/
def link? (names : AnchorNames) : Node String → Option (Node Nat × AnchorNames)
  | .scalar anchor s =>
    let (a, names) := names.number anchor
    some (.scalar a s, names)
  | .alias name => (names.lookup name).map fun n => (.alias n, names)
  | .sequence anchor tag items => do
    let (a, names) := names.number anchor
    let (items, names) ← linkItems? names items
    return (.sequence a tag items, names)
  | .mapping anchor tag entries => do
    let (a, names) := names.number anchor
    let (entries, names) ← linkEntries? names entries
    return (.mapping a tag entries, names)

def linkItems? (names : AnchorNames) : List (Node String) → Option (List (Node Nat) × AnchorNames)
  | [] => some ([], names)
  | item :: items => do
    let (item, names) ← link? names item
    let (items, names) ← linkItems? names items
    return (item :: items, names)

def linkEntries? (names : AnchorNames) : List (Node String × Node String) →
    Option (List (Node Nat × Node Nat) × AnchorNames)
  | [] => some ([], names)
  | (key, value) :: entries => do
    let (key, names) ← link? names key
    let (value, names) ← link? names value
    let (entries, names) ← linkEntries? names entries
    return ((key, value) :: entries, names)

end

/-- A node under the number of its anchor. -/
def entry (n : Node Nat) : Option Nat → List (Nat × Node Nat)
  | none => []
  | some a => [(a, n)]

mutual

/-- The nodes with an anchor, in the order of the text. -/
def anchored : Node Nat → List (Nat × Node Nat)
  | .scalar a s => entry (.scalar a s) a
  | .alias _ => []
  | .sequence a tag items => entry (.sequence a tag items) a ++ anchoredItems items
  | .mapping a tag entries => entry (.mapping a tag entries) a ++ anchoredEntries entries

def anchoredItems : List (Node Nat) → List (Nat × Node Nat)
  | [] => []
  | item :: items => anchored item ++ anchoredItems items

def anchoredEntries : List (Node Nat × Node Nat) → List (Nat × Node Nat)
  | [] => []
  | (key, value) :: entries => anchored key ++ anchored value ++ anchoredEntries entries

end

end Node

/-- A document: its root, if it has one, and the nodes with an anchor, the latest first. -/
structure Tree where
  root : Option (Node Nat)
  anchored : List (Nat × Node Nat)

namespace Tree

/-- The document with a given root. -/
def ofRoot (root : Node Nat) : Tree := ⟨some root, root.anchored.reverse⟩

/-- The node that an alias stands for. -/
def target? (t : Tree) (n : Nat) : Option (Node Nat) := t.anchored.lookup n

/-- How many aliases may be followed when the document is read. -/
def aliasLimit (t : Tree) : Nat := 100 * (t.root.map Node.size).getD 0

/-- The document of a text. -/
def read? (text : List Char) : Option Tree := do
  match ← document? (← tokens? text) with
  | none => return ⟨none, []⟩
  | some n =>
    let (root, _) ← n.link? []
    return ofRoot root

end Tree

end RouteDocs.Yaml
