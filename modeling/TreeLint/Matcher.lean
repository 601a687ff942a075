import TreeLint.Visit

/-!
# Matchers

A matcher is a question about one node of a tree that is answered with yes or no. It is built from
questions about the kind of the node, its parent, its callee and the types bound to it.

A question about a type is answered with no when the type is not known.
-/

namespace TreeLint

/-- A question about a node. -/
inductive Matcher where
  | kindIs (kind : Kind)
  /-- The node has a parent that `inner` holds for. -/
  | parent (inner : Matcher)
  /-- The node is a call whose callee `inner` holds for. -/
  | callee (inner : Matcher)
  /-- The node refers to a member of a type with one of these names. -/
  | ownerIn (names : List String)
  /-- The node refers to a method that returns the type that declares it. -/
  | returnsOwner
  /-- Every one of `inner` holds. -/
  | all (inner : List Matcher)
  /-- At least one of `inner` holds. -/
  | any (inner : List Matcher)
  | not (inner : Matcher)
  deriving Repr, Inhabited

namespace Matcher

mutual

/-- Whether a matcher holds for a node, seen from `visit`. -/
def holds (visit : Visit) : Matcher → NodeId → Bool
  | kindIs kind, node => visit.tree.kind? node = some kind
  | parent inner, node =>
    match visit.parent? node with
    | some above => holds visit inner above
    | none => false
  | callee inner, node =>
    match visit.tree.isCall node, visit.tree.callee? node with
    | true, some target => holds visit inner target
    | _, _ => false
  | ownerIn names, node =>
    match (visit.types.ownerOf? node).bind visit.types.typeName? with
    | some name => names.contains name
    | none => false
  | returnsOwner, node =>
    match visit.types.ownerOf? node, visit.types.returnsOf? node with
    | some owner, some returned => owner = returned
    | _, _ => false
  | all inner, node => allHold visit inner node
  | any inner, node => anyHolds visit inner node
  | not inner, node => !holds visit inner node

/-- Whether every matcher of a list holds for a node. -/
def allHold (visit : Visit) : List Matcher → NodeId → Bool
  | [], _ => true
  | m :: rest, node => holds visit m node && allHold visit rest node

/-- Whether some matcher of a list holds for a node. -/
def anyHolds (visit : Visit) : List Matcher → NodeId → Bool
  | [], _ => false
  | m :: rest, node => holds visit m node || anyHolds visit rest node

end

/-- Holds for the calls that `inner` holds for. -/
def call (inner : Matcher) : Matcher := all [kindIs .methodInvocation, inner]

/-- The nodes of `tree` that `m` holds for, in document order. -/
def select (m : Matcher) (tree : Tree) (types : TypeTable) : List NodeId :=
  (tree.descendants tree.root).filter (m.holds { tree, types })

end Matcher

end TreeLint
