import RouteDocs.Yaml.Token

/-!
# YAML nodes

## Main definitions

* `Yaml.Scalar`, `Yaml.Node`: what a document is made of. A node may carry an anchor, and an alias
  stands for the node with its anchor; `ρ` is what names an anchor.
* `Node.size`: the number of scalars, aliases, starts and ends of collections in a node.
-/

namespace RouteDocs.Yaml

/-- A scalar: its text, how it is written, and its tag. -/
structure Scalar where
  tag : Option String := none
  style : Style := .plain
  text : String := ""

/-- A node of a document. -/
inductive Node (ρ : Type) where
  | scalar (anchor : Option ρ) (s : Scalar)
  | alias (target : ρ)
  | sequence (anchor : Option ρ) (tag : Option String) (items : List (Node ρ))
  | mapping (anchor : Option ρ) (tag : Option String) (entries : List (Node ρ × Node ρ))

namespace Node

variable {ρ : Type}

/-- The scalar that stands where a document leaves something out. -/
def nothing : Node ρ := .scalar none {}

mutual

/-- The number of scalars, aliases, starts and ends of collections in a node. -/
def size : Node ρ → Nat
  | .scalar _ _ => 1
  | .alias _ => 1
  | .sequence _ _ items => 2 + itemsSize items
  | .mapping _ _ entries => 2 + entriesSize entries

def itemsSize : List (Node ρ) → Nat
  | [] => 0
  | item :: items => size item + itemsSize items

def entriesSize : List (Node ρ × Node ρ) → Nat
  | [] => 0
  | (key, value) :: entries => size key + size value + entriesSize entries

end

end Node

end RouteDocs.Yaml
