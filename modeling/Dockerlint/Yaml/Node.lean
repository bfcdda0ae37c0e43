import Dockerlint.Yaml.Token

/-!
# YAML nodes

The nodes of a document are scalars, sequences and mappings. A node with an anchor can be used
again by an alias, also inside itself, so aliases are kept as numbers.

## Main definitions

* `Yaml.Node`: a node
* `Yaml.Node.anchors`: the nodes that aliases stand for
* `Yaml.Node.size`: the number of parts of a node
-/

namespace Dockerlint.Yaml

/-- A node of a document. -/
inductive Node where
  | scalar (style : Style) (tag : Option Text) (text : Text)
  | sequence (items : List Node)
  | mapping (entries : List (Node × Node))
  /-- A node with the number of its anchor. -/
  | anchored (number : Nat) (node : Node)
  /-- The node whose anchor has the given number. -/
  | reference (number : Nat)
deriving Repr

namespace Node

/-- The node that stands where nothing is written. -/
def empty : Node := .scalar .plain none []

mutual

/-- The nodes with anchors in a node, by their numbers, in the order in which they begin. -/
def anchors : Node → List (Nat × Node)
  | .scalar .. => []
  | .sequence items => anchorsOfItems items
  | .mapping entries => anchorsOfEntries entries
  | .anchored number node => (number, node) :: anchors node
  | .reference _ => []

/-- The nodes with anchors among some items. -/
def anchorsOfItems : List Node → List (Nat × Node)
  | [] => []
  | item :: items => anchors item ++ anchorsOfItems items

/-- The nodes with anchors among some entries. -/
def anchorsOfEntries : List (Node × Node) → List (Nat × Node)
  | [] => []
  | (key, value) :: entries => anchors key ++ anchors value ++ anchorsOfEntries entries

end

mutual

/-- The number of parts of a node: its scalars and aliases, and the beginnings and the ends of its
collections. -/
def size : Node → Nat
  | .scalar .. => 1
  | .sequence items => sizeOfItems items + 2
  | .mapping entries => sizeOfEntries entries + 2
  | .anchored _ node => size node
  | .reference _ => 1

/-- The number of parts of some items. -/
def sizeOfItems : List Node → Nat
  | [] => 0
  | item :: items => size item + sizeOfItems items

/-- The number of parts of some entries. -/
def sizeOfEntries : List (Node × Node) → Nat
  | [] => 0
  | (key, value) :: entries => size key + size value + sizeOfEntries entries

end

end Node

end Dockerlint.Yaml
