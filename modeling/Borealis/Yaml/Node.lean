-- The nodes of a YAML document.
import Borealis.Yaml.Meaning

namespace Borealis.Yaml

/-- A node. An alias has a name of its own and stands for the node with a number. -/
inductive Node where
  | scalar (tag : Tag) (value : Text)
  | sequence (tag : Tag) (items : List Node)
  | mapping (tag : Tag) (entries : List (Node × Node))
  | reference (name : Text) (target : Nat)

namespace Node

/-- A node that is not written. -/
def absent : Node := scalar .null []

instance : Inhabited Node := ⟨absent⟩

/-- The kind of a node. -/
def tag : Node → Tag
  | scalar t _ => t
  | sequence t _ => t
  | mapping t _ => t
  | reference _ _ => .other []

end Node

/-- A document: its root, and the nodes that aliases can name. -/
structure Document where
  root : Node
  anchored : List (Nat × Node)

/-- The node that an alias stands for. Every other node stands for itself. -/
def Document.target (d : Document) : Node → Node
  | .reference _ k => (d.anchored.lookup k).getD .absent
  | n => n

end Borealis.Yaml
