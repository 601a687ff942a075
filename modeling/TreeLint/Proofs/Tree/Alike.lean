import Mathlib.Logic.Equiv.Basic
import TreeLint.Proofs.Tree.Sound

/-!
# Trees that look alike

Rules look at the links, kinds and ranges of nodes. Two trees look alike when these are the same in
both, whatever the numbers of the nodes are and whatever else the nodes hold.

- `Tree.Alike`: one tree shows of its nodes what another shows of them under other numbers.
- `Alike.ancestors`, `Alike.descendants`: the ways through one are those through the other.
- `Alike.sound`: links that agree do so under other numbers, too.
-/

namespace TreeLint

namespace Tree

/-- `tree'` shows of its nodes what `tree` shows of them, under the numbers that `σ` gives. -/
structure Alike (σ : NodeId ≃ NodeId) (tree tree' : Tree) : Prop where
  path : tree'.path = tree.path
  source : tree'.source = tree.source
  root : tree'.root = σ tree.root
  size : tree'.size = tree.size
  contains : ∀ id, tree'.contains (σ id) = tree.contains id
  kind? : ∀ id, tree'.kind? (σ id) = tree.kind? id
  range : ∀ id, tree'.range (σ id) = tree.range id
  parent? : ∀ id, tree'.parent? (σ id) = (tree.parent? id).map σ
  children : ∀ id, tree'.children (σ id) = (tree.children id).map σ

namespace Alike

variable {σ : NodeId ≃ NodeId} {tree tree' : Tree} (h : tree.Alike σ tree')

include h

/-! ## One node -/

theorem text (id : NodeId) : tree'.text (σ id) = tree.text id := by
  rw [Tree.text, Tree.text, h.range, h.source]

theorem isCall (id : NodeId) : tree'.isCall (σ id) = tree.isCall id := by
  rw [Tree.isCall, Tree.isCall, h.kind?]

theorem callee? (id : NodeId) : tree'.callee? (σ id) = (tree.callee? id).map σ := by
  rw [Tree.callee?, Tree.callee?, h.children, List.head?_map]

theorem receiver? (id : NodeId) : tree'.receiver? (σ id) = (tree.receiver? id).map σ := by
  rw [Tree.receiver?, Tree.receiver?, h.children, List.head?_map]

/-! ## Ways

The bound of a walk is the number of nodes, so it has to be the same in both trees. -/

theorem ancestors (id : NodeId) : tree'.ancestors (σ id) = (tree.ancestors id).map σ := by
  rw [Tree.ancestors, Tree.ancestors, h.size]
  generalize tree.size = bound
  induction bound generalizing id with
  | zero => rfl
  | succ bound ih =>
    rw [ancestorsWithin, ancestorsWithin, h.parent?, List.map_cons]
    cases tree.parent? id with
    | none => rfl
    | some parent => exact congrArg (σ id :: ·) (ih parent)

theorem descendants (id : NodeId) : tree'.descendants (σ id) = (tree.descendants id).map σ := by
  rw [Tree.descendants, Tree.descendants, h.size]
  generalize tree.size = bound
  induction bound generalizing id with
  | zero => rfl
  | succ bound ih =>
    rw [descendantsWithin, descendantsWithin, h.children, List.map_cons, List.map_flatMap,
      List.flatMap_map]
    exact congrArg (σ id :: ·) (List.flatMap_congr fun child _ => ih child)

theorem sound (htree : tree.Sound) : tree'.Sound where
  contains_root := by rw [h.root, h.contains, htree.contains_root]
  contains_child := fun {parent child} hchild => by
    rw [← σ.apply_symm_apply parent, h.children, List.mem_map] at hchild
    obtain ⟨below, hbelow, rfl⟩ := hchild
    rw [h.contains, htree.contains_child hbelow]
  parent?_eq_some_iff := fun {parent child} => by
    rw [← σ.apply_symm_apply parent, ← σ.apply_symm_apply child, h.parent?, h.children,
      List.mem_map_of_injective σ.injective, ← htree.parent?_eq_some_iff, ← Option.map_some,
      (Option.map_injective σ.injective).eq_iff]
  parent?_root := by rw [h.root, h.parent?, htree.parent?_root, Option.map_none]
  nodup_children := fun parent => by
    rw [← σ.apply_symm_apply parent, h.children]
    exact (htree.nodup_children _).map σ.injective
  reached := fun id hid => by
    rw [← σ.apply_symm_apply id, h.contains] at hid
    rw [← σ.apply_symm_apply id, h.root]
    refine (htree.reached _ hid).lift σ fun parent child hchild => ?_
    change σ child ∈ tree'.children (σ parent)
    rw [h.children]
    exact List.mem_map_of_mem hchild

end Alike

end Tree

end TreeLint
