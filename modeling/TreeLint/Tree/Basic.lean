import TreeLint.Span
import TreeLint.Tree.Kind

/-!
# Syntax trees

The nodes of a tree stand in one array and name each other by their place in it. Nodes are linked
in both directions: `Node.children` goes down in document order, `Node.parent` goes up.

- `Tree.descendants`: a node and all below it, each node before its children.
- `Tree.ancestors`: a node and all above it, innermost first.
- `Tree.text` and `Tree.lineColumn` relate nodes to the source text.

No way through a tree is longer than the tree has nodes, so both walks take that number of steps
as a bound; in a tree that `Builder.finish` accepts they end before they reach it.
-/

namespace TreeLint

/-- The place of a node in the array of its tree. Places here have no bound. A store with 32 bits for
a place has the same places for trees of fewer than `2 ^ 32` nodes; further nodes would all get the
last one. -/
structure NodeId where
  index : Nat
  deriving DecidableEq, Repr, Inhabited

/-- A node is shown as a number sign and its place. -/
instance : ToString NodeId := ⟨fun id => s!"#{id.index}"⟩

/-- One construct of a program. -/
structure Node where
  kind : Kind
  range : Span
  /-- The name referred to or declared. -/
  name : Option String := none
  parent : Option NodeId := none
  /-- The parts of the construct in document order. -/
  children : List NodeId := []
  /-- Keys of rules that must not report this node or anything below it. -/
  suppressions : List String := []
  deriving DecidableEq, Repr, Inhabited

/-- The syntax tree of one source text. -/
structure Tree where
  /-- The path under which the source is shown. -/
  path : String
  source : String
  nodes : Array Node
  root : NodeId
  deriving Repr, Inhabited

namespace Tree

/-- The node at the place `id`, if there is one. -/
def node? (tree : Tree) (id : NodeId) : Option Node := tree.nodes[id.index]?

/-- Number of nodes of `tree`. -/
def size (tree : Tree) : Nat := tree.nodes.size

/-- Whether `tree` has a node at the place `id`. -/
def contains (tree : Tree) (id : NodeId) : Bool := id.index < tree.nodes.size

/-- The places of all nodes of `tree`, in the order of the array. -/
def ids (tree : Tree) : List NodeId := (List.range tree.size).map NodeId.mk

/-- The kind of the node `id`; `none` for a place outside the tree. -/
def kind? (tree : Tree) (id : NodeId) : Option Kind := (tree.node? id).map Node.kind

/-- The source range of the node `id`; empty for a place outside the tree. -/
def range (tree : Tree) (id : NodeId) : Span := ((tree.node? id).map Node.range).getD (.point 0)

/-- The node above `id`. -/
def parent? (tree : Tree) (id : NodeId) : Option NodeId := (tree.node? id).bind Node.parent

/-- The nodes right below `id`, in document order. -/
def children (tree : Tree) (id : NodeId) : List NodeId :=
  ((tree.node? id).map Node.children).getD []

/-- The source text of the node `id`; empty when its range does not fit the source. -/
def text (tree : Tree) (id : NodeId) : String :=
  let range := tree.range id
  String.ofList ((Text.slice? tree.source.toList range.start range.stop).getD [])

/-- Line and column of the byte `offset` of the source, counted from one. -/
def lineColumn (tree : Tree) (offset : Nat) : Nat × Nat :=
  Text.lineColumn tree.source.toList offset

/-! ## Walks -/

/-- `id` and at most `bound - 1` nodes above it, innermost first. -/
def ancestorsWithin (tree : Tree) : Nat → NodeId → List NodeId
  | 0, _ => []
  | bound + 1, id =>
    id :: match tree.parent? id with
      | some parent => tree.ancestorsWithin bound parent
      | none => []

/-- `id` and all nodes above it, innermost first. -/
def ancestors (tree : Tree) (id : NodeId) : List NodeId := tree.ancestorsWithin tree.size id

/-- `id` and what lies at most `bound - 1` levels below it, each node before its children. -/
def descendantsWithin (tree : Tree) : Nat → NodeId → List NodeId
  | 0, _ => []
  | bound + 1, id => id :: (tree.children id).flatMap (tree.descendantsWithin bound)

/-- `id` and all nodes below it, each node before its children. -/
def descendants (tree : Tree) (id : NodeId) : List NodeId := tree.descendantsWithin tree.size id

/-- The nodes of the given `kind`, in document order. -/
def nodesOf (tree : Tree) (kind : Kind) : List NodeId :=
  (tree.descendants tree.root).filter fun id => tree.kind? id = some kind

/-- The first node in document order with the source text `text`. -/
def find? (tree : Tree) (text : String) : Option NodeId :=
  (tree.descendants tree.root).find? fun id => tree.text id == text

/-! ## Parts of constructs -/

/-- The callee of the node `call`. -/
def callee? (tree : Tree) (call : NodeId) : Option NodeId := (tree.children call).head?

/-- The arguments of the node `call`. -/
def arguments (tree : Tree) (call : NodeId) : List NodeId := (tree.children call).tail

/-- The receiver of `select`, a qualified name. -/
def receiver? (tree : Tree) (select : NodeId) : Option NodeId := (tree.children select).head?

/-- Whether the node `id` is a call. -/
def isCall (tree : Tree) (id : NodeId) : Bool := tree.kind? id = some .methodInvocation

end Tree

end TreeLint
