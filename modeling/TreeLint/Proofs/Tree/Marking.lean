import TreeLint.Proofs.Tree.Alike
import TreeLint.Proofs.Tree.Nesting

/-!
# Keys on nodes

A key on a node tells no more than which rules are to be silent there. Trees that differ in keys
alone have the same nodes, links, ranges and ways.

* `Tree.SameButKeys`: two trees that are equal but for the keys on their nodes.
* `Tree.mark`: the tree with one more key on a node. `Builder.finish_suppress` says that it is what
  the builder makes when the key is put there before it finishes.
-/

namespace TreeLint

/-- The `node` without its keys. -/
def Node.bare (node : Node) : Node := { node with suppressions := [] }

namespace Tree

/-- The trees `tree` and `tree'` are equal but for the keys on their nodes. -/
structure SameButKeys (tree tree' : Tree) : Prop where
  path : tree'.path = tree.path
  source : tree'.source = tree.source
  root : tree'.root = tree.root
  size : tree'.size = tree.size
  node? : ∀ id, (tree'.node? id).map Node.bare = (tree.node? id).map Node.bare

namespace SameButKeys

variable {tree tree' : Tree} (h : tree.SameButKeys tree')

include h

/-! ## One node -/

/-- What does not depend on the keys of a node (`hf`) is the same in both trees. -/
theorem map_node? {α : Type} {f : Node → α} (hf : ∀ node, f node.bare = f node) (id : NodeId) :
    (tree'.node? id).map f = (tree.node? id).map f := by
  have hbare : f = f ∘ Node.bare := funext fun node => (hf node).symm
  rw [hbare, ← Option.map_map, ← Option.map_map, h.node?]

theorem contains (id : NodeId) : tree'.contains id = tree.contains id := by
  rw [Tree.contains, Tree.contains, ← Tree.size, ← Tree.size, h.size]

theorem kind? (id : NodeId) : tree'.kind? id = tree.kind? id := h.map_node? (fun _ => rfl) id

theorem range (id : NodeId) : tree'.range id = tree.range id := by
  rw [Tree.range, Tree.range, h.map_node? (f := Node.range) fun _ => rfl]

theorem children (id : NodeId) : tree'.children id = tree.children id := by
  rw [Tree.children, Tree.children, h.map_node? (f := Node.children) fun _ => rfl]

theorem parent? (id : NodeId) : tree'.parent? id = tree.parent? id := by
  have hparent (t : Tree) :
      t.parent? id = ((t.node? id).map Node.parent).bind fun parent => parent := by
    rw [Option.bind_map]
    rfl
  rw [hparent, hparent, h.map_node? fun _ => rfl]

/-- Rules do not see keys, so `tree'` looks like `tree`, number for number. -/
theorem alike : tree.Alike (Equiv.refl NodeId) tree' where
  path := h.path
  source := h.source
  root := h.root
  size := h.size
  contains := h.contains
  kind? := h.kind?
  range := h.range
  parent? node := by rw [Equiv.refl_apply, h.parent?, Equiv.coe_refl, Option.map_id, id]
  children node := by rw [Equiv.refl_apply, h.children, Equiv.coe_refl, List.map_id]

theorem ancestors (id : NodeId) : tree'.ancestors id = tree.ancestors id := by
  simpa using h.alike.ancestors id

end SameButKeys

/-! ## One more key -/

/-- The `tree` with one more `key` on the node `id`. -/
def mark (tree : Tree) (id : NodeId) (key : String) : Tree :=
  { tree with
    nodes := tree.nodes.modify id.index fun node =>
      { node with suppressions := node.suppressions ++ [key] } }

variable (tree : Tree) {id : NodeId} (key : String)

theorem node?_mark_self : (tree.mark id key).node? id = (tree.node? id).map fun node =>
    { node with suppressions := node.suppressions ++ [key] } := by
  simp [mark, node?, Array.getElem?_modify]

theorem node?_mark_of_ne {other : NodeId} (h : other ≠ id) :
    (tree.mark id key).node? other = tree.node? other := by
  have hindex : id.index ≠ other.index := fun hindex => h (by cases id; cases other; simp_all)
  simp [mark, node?, Array.getElem?_modify, hindex]

theorem sameButKeys_mark (tree : Tree) (id : NodeId) (key : String) :
    tree.SameButKeys (tree.mark id key) where
  path := rfl
  source := rfl
  root := rfl
  size := Array.size_modify ..
  node? := fun other => by
    by_cases hother : other = id
    · subst hother
      rw [node?_mark_self, Option.map_map]
      rfl
    · rw [node?_mark_of_ne tree key hother]

end Tree

/-! ## Builders -/

namespace Builder

variable {b b' : Builder} {root : NodeId}

/-- Whether the nodes of `b'` form a tree is told from their number, ranges and children, which are
those of `b`. -/
theorem IsTree.congr (h : b.IsTree root) (hsource : b'.source = b.source)
    (hsize : b'.nodes.size = b.nodes.size) (hrange : b'.range = b.range)
    (hchildren : b'.children = b.children) : b'.IsTree root := by
  have hcontains : b'.contains = b.contains := funext fun id => by rw [contains, contains, hsize]
  have hall : b'.allChildren = b.allChildren := by
    rw [allChildren, allChildren, ids, ids, hsize, hchildren]
  have hlink : b'.Link = b.Link := by
    funext parent child
    rw [Link, Link, hchildren]
  refine ⟨?_, ?_, ?_, ?_, ?_⟩
  · rw [hcontains, hrange, hsource]
    exact h.fits
  · rw [hcontains, hrange, hchildren]
    exact h.inside
  · rw [hcontains, hrange, hchildren]
    exact h.ordered
  · rw [hcontains, hall]
    exact h.once
  · rw [hcontains, hlink]
    exact h.reached

/-- A `key` on the node `id` has no part in whether a builder can finish, and the tree has the
key. -/
theorem finish_suppress {tree : Tree} (hb : b.Linked) {id : NodeId} (hid : b.contains id = true)
    (key : String) (h : b.finish root = .ok tree) :
    (b.suppress id key).finish root = .ok (tree.mark id key) := by
  have hnamed : (BuilderCall.suppress id key).named.all b.contains = true := by
    simpa [BuilderCall.named] using hid
  have hlinked : (b.suppress id key).Linked := hb.perform hnamed
  have hroot : b.contains root = true := (finish_eq_ok_iff_checks.mp h).1
  obtain ⟨htop, htree, rfl⟩ := (finish_eq_ok_iff hb hroot).mp h
  have hchildren : (b.suppress id key).children = b.children :=
    funext (children_update id _ fun _ => rfl)
  have hparent : (b.suppress id key).parent? = b.parent? :=
    funext (parent?_update id _ fun _ => rfl)
  have hrange : (b.suppress id key).range = b.range := by
    funext other
    rw [range, range, range?, range?, suppress, nodes_update]
    split
    · cases b.nodes[other.index]? <;> rfl
    · rfl
  have hsize : (b.suppress id key).nodes.size = b.nodes.size := Array.size_modify ..
  have hcontains : (b.suppress id key).contains root = true :=
    (contains_update b id _ root).trans hroot
  exact (finish_eq_ok_iff hlinked hcontains).mpr
    ⟨by rw [hparent, htop], htree.congr rfl hsize hrange hchildren, rfl⟩

end Builder

theorem Tree.Finished.mark {tree : Tree} (h : tree.Finished) {id : NodeId}
    (hid : tree.contains id = true) (key : String) : (tree.mark id key).Finished := by
  obtain ⟨path, source, calls, root, hcalls, hfinish⟩ := h
  have hb := Builder.linked_performAll (Builder.linked_start path source) hcalls
  have hcontains : ((Builder.start path source).performAll calls).contains id = true := by
    obtain ⟨-, -, -, -, rfl⟩ := Builder.finish_eq_ok_iff_checks.mp hfinish
    exact hid
  refine ⟨path, source, calls ++ [.suppress id key], root, ?_, ?_⟩
  · refine Builder.admits_append.mpr ⟨hcalls, ?_⟩
    simp [Builder.admits, BuilderCall.named, hcontains]
  · rw [Builder.performAll, List.foldl_append]
    exact Builder.finish_suppress hb hcontains key hfinish

end TreeLint
