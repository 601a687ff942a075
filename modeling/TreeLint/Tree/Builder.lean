import TreeLint.Tree.Basic

/-!
# Building trees

A builder adds detached nodes and links them; nothing is checked on the way. `Builder.finish`
checks everything at once and is the only way to a `Tree`:

- the root exists and was attached to nothing;
- every range lies in the source on character boundaries, and the children of a node lie inside
  it, one behind the other;
- every node can be reached from the root, and in one way only.

The first fault in this order is the error.
-/

namespace TreeLint

/-- Why nodes do not form a tree. -/
inductive TreeError where
  | noSuchRoot (root : NodeId)
  | rootHasParent (root : NodeId)
  /-- A range does not fit the source text. -/
  | outsideSource (node : NodeId) (range : Span) (sourceSize : Nat)
  /-- A child reaches over an end of its parent. -/
  | escapesParent (child : NodeId) (childNode : Node) (parent : NodeId) (parentNode : Node)
  /-- A child begins before the sibling in front of it ends. -/
  | overlapsSibling (child : NodeId) (childNode : Node)
  /-- A link leads to a place without a node. No sequence of calls makes such a link. -/
  | danglingLink (target : NodeId)
  | reachedTwice (node : NodeId)
  | unreachable (node : NodeId)
  deriving DecidableEq, Repr

namespace TreeError

/-- What is wrong with the links between nodes, or `none` when a range is at fault. -/
def structureFault? : TreeError → Option String
  | noSuchRoot root => some s!"root {root} does not exist"
  | rootHasParent root => some s!"root {root} has a parent"
  | outsideSource .. => none
  | escapesParent child c parent p =>
    some (s!"{c.kind} {child} ({c.range}) escapes its parent " ++
      s!"{p.kind} {parent} ({p.range})")
  | overlapsSibling child c =>
    some s!"{c.kind} {child} ({c.range}) overlaps or precedes an earlier sibling"
  | danglingLink target => some s!"{target} does not exist"
  | reachedTwice node => some s!"{node} is reachable twice"
  | unreachable node => some s!"{node} is not reachable from the root"

/-- The text shown to a user. -/
def message : TreeError → String
  | outsideSource node range size =>
    s!"Node {node} has range {range} outside a source of {size} bytes"
  | e => "Malformed tree: " ++ e.structureFault?.getD ""

end TreeError

/-- A tree in the making. -/
structure Builder where
  path : String
  source : String
  nodes : Array Node := #[]
  deriving Repr, Inhabited

namespace Builder

/-- Whether a node was added at the place `id`. -/
def contains (b : Builder) (id : NodeId) : Bool := id.index < b.nodes.size

/-- Changes the node `id` by `change`; a place without a node is left alone. -/
def update (b : Builder) (id : NodeId) (change : Node → Node) : Builder :=
  { b with nodes := b.nodes.modify id.index change }

/-- The place that the next node of `b` will get. -/
def nextId (b : Builder) : NodeId := ⟨b.nodes.size⟩

/-- Adds a node without links, at the place `nextId`. -/
def push (b : Builder) (kind : Kind) (range : Span) (name : Option String := none) : Builder :=
  { b with nodes := b.nodes.push ⟨kind, range, name, none, [], []⟩ }

/-- Puts `child` behind the children of `parent`. The two links are made one after the other, the
upward one first, so that an unknown parent is still recorded in a known child. -/
def attach (b : Builder) (parent child : NodeId) : Builder :=
  if b.contains child then
    (b.update child fun node => { node with parent := some parent }).update parent
      fun node => { node with children := node.children ++ [child] }
  else b

/-- Keeps the rule that `key` names from reporting `id` and what lies below it. -/
def suppress (b : Builder) (id : NodeId) (key : String) : Builder :=
  b.update id fun node => { node with suppressions := node.suppressions ++ [key] }

/-- Gives the node `id` another range. -/
def setRange (b : Builder) (id : NodeId) (range : Span) : Builder :=
  b.update id fun node => { node with range }

/-- The range of the node `id`, if there is one at this place. -/
def range? (b : Builder) (id : NodeId) : Option Span := (b.nodes[id.index]?).map Node.range

/-- The children of the node `id` in the order in which they were attached. -/
def children (b : Builder) (id : NodeId) : List NodeId :=
  ((b.nodes[id.index]?).map Node.children).getD []

/-! ## Checks -/

/-- Checks that the children of a node lie inside it, none before the end of the one in front.
`reached` is where the next child may begin. -/
def checkChildren (b : Builder) (id : NodeId) (node : Node) (reached : Nat) :
    List NodeId → Except TreeError Unit
  | [] => .ok ()
  | child :: rest =>
    match b.nodes[child.index]? with
    | none => .error (.danglingLink child)
    | some childNode =>
      if !node.range.contains childNode.range then
        .error (.escapesParent child childNode id node)
      else if childNode.range.start < reached then .error (.overlapsSibling child childNode)
      else b.checkChildren id node childNode.range.stop rest

/-- Checks the range of `node`, which stands at `id`, then those of its children against it. -/
def checkNode (b : Builder) (source : List Char) (id : NodeId) (node : Node) :
    Except TreeError Unit :=
  if node.range.fits source then b.checkChildren id node node.range.start node.children
  else .error (.outsideSource id node.range (Text.byteSize source))

/-- Checks the ranges of all nodes, from the place `index` on. -/
def checkNodes (b : Builder) (source : List Char) : (index : Nat) → List Node →
    Except TreeError Unit
  | _, [] => .ok ()
  | index, node :: rest =>
    match b.checkNode source ⟨index⟩ node with
    | .error e => .error e
    | .ok () => b.checkNodes source (index + 1) rest

/-- The places of all nodes of `b`, in the order in which they were added. -/
def ids (b : Builder) : List NodeId := (List.range b.nodes.size).map NodeId.mk

/-- The nodes that are not in `met`. -/
def unmet (b : Builder) (met : List NodeId) : List NodeId := b.ids.filter (· ∉ met)

/-- Meeting one more node, `id`, leaves fewer to be met. -/
theorem length_unmet_cons_lt {b : Builder} {met : List NodeId} {id : NodeId}
    (hid : b.contains id) (hnew : id ∉ met) :
    (b.unmet (id :: met)).length < (b.unmet met).length := by
  have hmem : id ∈ b.unmet met := by
    simpa [unmet, ids, hnew] using ⟨id.index, by simpa [contains] using hid, rfl⟩
  have hsub : b.unmet (id :: met) = (b.unmet met).filter (· ≠ id) := by
    simp only [unmet, List.filter_filter]
    refine List.filter_congr fun x _ => ?_
    by_cases hx : x = id <;> simp [hx]
  rw [hsub]
  exact List.length_filter_lt_length_iff_exists.mpr ⟨id, hmem, by simp⟩

/-- Follows the links downward from the nodes of `pending`, last child first, and collects the
nodes met. Each turn of the loop meets a node that was not met before. -/
def reach (b : Builder) (met : List NodeId) : (pending : List NodeId) →
    Except TreeError (List NodeId)
  | [] => .ok met
  | id :: pending =>
    if _ : b.contains id then
      if _ : id ∈ met then .error (.reachedTwice id)
      else b.reach (id :: met) ((b.children id).reverse ++ pending)
    else .error (.danglingLink id)
termination_by (b.unmet met).length
decreasing_by exact length_unmet_cons_lt ‹_› ‹_›

/-- Checks that the links downward from `root` lead to every node, and to none in two ways. -/
def checkReach (b : Builder) (root : NodeId) : Except TreeError Unit :=
  match b.reach [] [root] with
  | .error e => .error e
  | .ok met =>
    match (List.range b.nodes.size).find? fun index => ⟨index⟩ ∉ met with
    | some index => .error (.unreachable ⟨index⟩)
    | none => .ok ()

/-- The finished tree with the given `root`, or the first fault found. -/
def finish (b : Builder) (root : NodeId) : Except TreeError Tree :=
  match b.nodes[root.index]? with
  | none => .error (.noSuchRoot root)
  | some rootNode =>
    if rootNode.parent.isSome then .error (.rootHasParent root)
    else
      match b.checkNodes b.source.toList 0 b.nodes.toList with
      | .error e => .error e
      | .ok () =>
        match b.checkReach root with
        | .error e => .error e
        | .ok () => .ok ⟨b.path, b.source, b.nodes, root⟩

end Builder

end TreeLint
