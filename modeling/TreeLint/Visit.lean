import TreeLint.Typing.Table

/-!
# Visits

While a tree is walked, each node is looked at together with the way that led to it. A visit is the
tree, its type facts and that way, with the node being visited in front and the root at the end.

- `Tree.walk` enters all nodes from the root on and keeps the way to the node entered last.
- `Visit.parent?` is the node above another, as it can be seen from a visit.
-/

namespace TreeLint

/-- What can be seen at one moment of a walk. -/
structure Visit where
  tree : Tree
  types : TypeTable
  /-- The nodes from the one being visited up to the root. -/
  trail : List NodeId := []
  deriving Inhabited

/-- One thing left to do on a walk. -/
inductive Turn where
  | enter (node : NodeId)
  /-- Go back up from the node entered last. -/
  | leave
  deriving DecidableEq, Repr

/-- A walk under way. -/
structure Walk (σ : Type) where
  /-- What is left to do, the next thing first. -/
  pending : List Turn
  /-- The nodes entered and not yet left, the innermost first. -/
  trail : List NodeId
  /-- What has been gathered so far. -/
  gathered : σ

namespace Walk

variable {σ : Type}

/-- The walk through `tree` before its first turn, with `init` gathered. -/
def start (tree : Tree) (init : σ) : Walk σ := ⟨[.enter tree.root], [], init⟩

/-- One turn of `walk`. A node is looked at, together with the trail above it, when it is entered;
its children are entered next, and then it is left. A finished walk stays as it is. -/
def turn (tree : Tree) (look : σ → NodeId → List NodeId → σ) (walk : Walk σ) : Walk σ :=
  match walk.pending with
  | [] => walk
  | .leave :: rest => { walk with pending := rest, trail := walk.trail.tail }
  | .enter node :: rest =>
    { pending := (tree.children node).map .enter ++ .leave :: rest
      trail := node :: walk.trail
      gathered := look walk.gathered node walk.trail }

/-- A number of turns. -/
def turns (tree : Tree) (look : σ → NodeId → List NodeId → σ) : Nat → Walk σ → Walk σ
  | 0, walk => walk
  | n + 1, walk => turns tree look n (walk.turn tree look)

end Walk

/-- What a walk through the whole of `tree` gathers. Every node is entered and left, so the walk is
over after two turns for each. -/
def Tree.walk {σ : Type} (tree : Tree) (look : σ → NodeId → List NodeId → σ) (init : σ) : σ :=
  (Walk.turns tree look (2 * tree.size) (.start tree init)).gathered

namespace Visit

/-- The node being visited, first in `visit.trail`. -/
def current? (visit : Visit) : Option NodeId := visit.trail.head?

/-- The nodes from the root down to the one being visited, `visit.trail` the other way round. -/
def path (visit : Visit) : List NodeId := visit.trail.reverse

/-- The node above `node`: read off the trail for the node being visited, and off the links of the
tree for any other. -/
def parent? (visit : Visit) (node : NodeId) : Option NodeId :=
  match visit.trail with
  | current :: above =>
    if current = node then above.head? else visit.tree.parent? node
  | [] => visit.tree.parent? node

end Visit

end TreeLint
