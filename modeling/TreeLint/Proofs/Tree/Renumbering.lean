import TreeLint.Proofs.Tree.Alike
import TreeLint.Proofs.Tree.Below

/-!
# Trees up to the numbers of their nodes

The number of a node says when it was added, and nothing else. Two trees are the same up to these
numbers when a renumbering takes every node of one to a node of the other, links included. What a
tree says of a node is then the same in both.

- `Tree.Renumbered`: the trees are equal up to a renumbering.
- `Renumbered.alike`: such trees look alike.
- `Sound.inOrder`: the renumbering that counts the nodes of a tree in document order.
-/

namespace TreeLint

/-- The `node` with `σ` applied to its links. -/
def Node.renumber (σ : NodeId ≃ NodeId) (node : Node) : Node :=
  { node with parent := node.parent.map σ, children := node.children.map σ }

namespace Tree

/-- The trees are equal but for the numbers of their nodes: `σ` takes each node of the first to one
of the second, and each place without a node to another such place. -/
structure Renumbered (σ : NodeId ≃ NodeId) (tree tree' : Tree) : Prop where
  path : tree'.path = tree.path
  source : tree'.source = tree.source
  root : tree'.root = σ tree.root
  node? : ∀ id, tree'.node? (σ id) = (tree.node? id).map (Node.renumber σ)

theorem contains_eq_isSome (tree : Tree) (id : NodeId) :
    tree.contains id = (tree.node? id).isSome := by
  rw [Bool.eq_iff_iff]
  simp [contains, Tree.node?]

theorem nodup_ids (tree : Tree) : tree.ids.Nodup :=
  List.nodup_range.map fun i j h => by simpa using h

namespace Renumbered

variable {σ : NodeId ≃ NodeId} {tree tree' : Tree} (h : tree.Renumbered σ tree')

include h

/-! ## One node -/

theorem contains (id : NodeId) : tree'.contains (σ id) = tree.contains id := by
  rw [contains_eq_isSome, contains_eq_isSome, h.node?, Option.isSome_map]

theorem kind? (id : NodeId) : tree'.kind? (σ id) = tree.kind? id := by
  rw [Tree.kind?, Tree.kind?, h.node?, Option.map_map]
  rfl

theorem range (id : NodeId) : tree'.range (σ id) = tree.range id := by
  rw [Tree.range, Tree.range, h.node?, Option.map_map]
  rfl

theorem parent? (id : NodeId) : tree'.parent? (σ id) = (tree.parent? id).map σ := by
  rw [Tree.parent?, Tree.parent?, h.node?]
  cases tree.node? id <;> rfl

theorem children (id : NodeId) : tree'.children (σ id) = (tree.children id).map σ := by
  rw [Tree.children, Tree.children, h.node?]
  cases tree.node? id <;> rfl

theorem perm_ids : (tree.ids.map σ).Perm tree'.ids := by
  refine (List.perm_ext_iff_of_nodup (tree.nodup_ids.map σ.injective) tree'.nodup_ids).mpr
    fun id => ?_
  rw [← σ.apply_symm_apply id, List.mem_map_of_injective σ.injective, mem_ids, mem_ids, h.contains]

theorem alike : tree.Alike σ tree' where
  path := h.path
  source := h.source
  root := h.root
  size := by simpa [ids] using h.perm_ids.length_eq.symm
  contains := h.contains
  kind? := h.kind?
  range := h.range
  parent? := h.parent?
  children := h.children

end Renumbered

/-! ## Document order -/

namespace Sound

variable {tree : Tree} (htree : tree.Sound)

/-- The renumbering that counts the nodes of `tree` in document order, the root first. Places
without a node stay. -/
def inOrder : NodeId ≃ NodeId where
  toFun id := if tree.contains id then ⟨(tree.descendants tree.root).idxOf id⟩ else id
  invFun id := ((tree.descendants tree.root)[id.index]?).getD id
  left_inv id := by
    by_cases hid : tree.contains id = true
    · simp [hid, List.getElem?_idxOf (htree.mem_descendants_root hid)]
    · have hlength := htree.perm_descendants_root.length_eq
      have hout : (tree.descendants tree.root).length ≤ id.index := by
        simpa [ids, contains, size, hlength] using hid
      simp [hid, hout]
  right_inv id := by
    have hlength : (tree.descendants tree.root).length = tree.size := by
      simpa [ids] using htree.perm_descendants_root.length_eq
    cases hget : (tree.descendants tree.root)[id.index]? with
    | none =>
      have hout : tree.contains id = false := by
        rw [List.getElem?_eq_none_iff, hlength] at hget
        exact decide_eq_false (Nat.not_lt.mpr hget)
      simp only [hget, Option.getD_none, hout]
      rfl
    | some found =>
      obtain ⟨hlt, rfl⟩ := List.getElem?_eq_some_iff.mp hget
      have hcontains := htree.contains_of_mem_descendants htree.contains_root _
        (List.getElem_mem hlt)
      simp only [hget, Option.getD_some, hcontains, if_true,
        (htree.nodup_descendants htree.contains_root).idxOf_getElem]

theorem inOrder_eq {i : Nat} {id : NodeId} (h : (tree.descendants tree.root)[i]? = some id) :
    htree.inOrder id = ⟨i⟩ := by
  obtain ⟨hlt, rfl⟩ := List.getElem?_eq_some_iff.mp h
  have hcontains := htree.contains_of_mem_descendants htree.contains_root _ (List.getElem_mem hlt)
  change (if tree.contains _ then _ else _) = _
  rw [if_pos hcontains, (htree.nodup_descendants htree.contains_root).idxOf_getElem]

end Sound

end Tree

end TreeLint
