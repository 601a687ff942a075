import TreeLint.Proofs.Tree.Below

/-!
# Ranges along a tree

`Builder.finish` compares the range of a node with those of its children alone. From that it follows
how the ranges of any two nodes lie: one holds the other when one is above the other, and otherwise
they lie one behind the other.

- `Tree.Nested`: what a finished tree says of a node and its children.
- `Sound.mem_descendants_iff`: the way down and the way up lead to each other.
- `Nested.contains_of_mem_ancestors`: a node lies inside every node above it.
- `Nested.pairwise_descendants`: of two nodes in document order the first is above the second, or
  ends before it begins.
-/

namespace TreeLint

namespace Tree

/-- The ranges of `tree` fit its source, and children lie in their parent one behind the other. -/
structure Nested (tree : Tree) : Prop where
  fits : ∀ {id}, tree.contains id = true → (tree.range id).fits tree.source.toList = true
  inside : ∀ {parent child}, child ∈ tree.children parent →
    (tree.range parent).start ≤ (tree.range child).start ∧
      (tree.range child).stop ≤ (tree.range parent).stop
  ordered : ∀ parent, (tree.children parent).IsChain fun l r =>
    (tree.range l).stop ≤ (tree.range r).start

end Tree

/-- The ranges of an accepted tree nest: `finish` has compared each node with its children. -/
theorem Builder.nested_of_isTree {b : Builder} {root : NodeId} (htree : b.IsTree root) :
    (⟨b.path, b.source, b.nodes, root⟩ : Tree).Nested := by
  refine ⟨fun {id} hid => Span.fits_iff.mpr (htree.fits id hid), fun {parent child} hchild =>
    htree.inside parent child (contains_of_child hchild) hchild, fun parent => ?_⟩
  change (b.children parent).IsChain _
  by_cases hparent : b.contains parent = true
  · exact htree.ordered parent hparent
  · rw [children_of_not_contains (by simpa using hparent)]
    exact .nil

namespace Tree

variable {tree : Tree} {id : NodeId}

theorem Finished.nested (h : tree.Finished) : tree.Nested := by
  obtain ⟨path, source, calls, root, hcalls, hfinish⟩ := h
  have hb := Builder.linked_performAll (Builder.linked_start path source) hcalls
  have hroot := (Builder.finish_eq_ok_iff_checks.mp hfinish).1
  obtain ⟨-, htree, rfl⟩ := (Builder.finish_eq_ok_iff hb hroot).mp hfinish
  exact Builder.nested_of_isTree htree

/-! ## The way down and the way up -/

namespace Sound

variable (htree : tree.Sound)

include htree

/-- A node `x` is below `id` exactly when `id` is above `x`. -/
theorem mem_descendants_iff (hid : tree.contains id = true) {x : NodeId}
    (hx : tree.contains x = true) : x ∈ tree.descendants id ↔ id ∈ tree.ancestors x := by
  refine ⟨htree.mem_ancestors_of_mem_descendants hid x, fun hmem => ?_⟩
  have hclimbs := htree.climbs_ancestors hx
  generalize tree.ancestors x = way at hmem hclimbs
  induction hclimbs with
  | top =>
    obtain rfl := List.mem_singleton.mp hmem
    rw [htree.descendants_eq hid]
    exact List.mem_cons_self
  | @up x parent way hparent _ ih =>
    rcases List.mem_cons.mp hmem with rfl | hmem
    · rw [htree.descendants_eq hid]
      exact List.mem_cons_self
    · exact htree.mem_descendants_of_mem_children hid (htree.parent?_eq_some_iff.mp hparent)
        (ih (htree.contains_parent hparent) hmem)

/-- What is below `child` stands together in what is below `parent`. -/
theorem descendants_infix_of_child {parent child : NodeId} (hchild : child ∈ tree.children parent)
    (hparent : tree.contains parent = true) :
    tree.descendants child <:+: tree.descendants parent := by
  rw [htree.descendants_eq hparent]
  obtain ⟨front, back, hsplit⟩ := List.append_of_mem hchild
  rw [hsplit, List.flatMap_append, List.flatMap_cons]
  exact (List.infix_append' _ _ _).trans (List.infix_cons (List.infix_refl _))

/-- What is below `id` stands together in what is below the root. -/
theorem descendants_infix_root (hid : tree.contains id = true) :
    tree.descendants id <:+: tree.descendants tree.root := by
  induction htree.reached id hid with
  | refl => exact List.infix_refl _
  | @tail parent child _ hchild ih =>
    have hparent := htree.contains_parent (htree.parent?_eq_some_iff.mpr hchild)
    exact (htree.descendants_infix_of_child hchild hparent).trans (ih hparent)

end Sound

/-! ## Ranges -/

namespace Nested

variable (hnested : tree.Nested) (htree : tree.Sound)

include hnested

theorem start_le_stop (hid : tree.contains id = true) :
    (tree.range id).start ≤ (tree.range id).stop :=
  (Span.fits_iff.mp (hnested.fits hid)).1

include htree

/-- A node `id` lies inside every node `above` it. -/
theorem contains_of_mem_ancestors (hid : tree.contains id = true) {above : NodeId}
    (h : above ∈ tree.ancestors id) :
    (tree.range above).start ≤ (tree.range id).start ∧
      (tree.range id).stop ≤ (tree.range above).stop := by
  have hclimbs := htree.climbs_ancestors hid
  generalize tree.ancestors id = way at h hclimbs
  induction hclimbs with
  | top =>
    obtain rfl := List.mem_singleton.mp h
    exact ⟨Nat.le_refl _, Nat.le_refl _⟩
  | @up id parent way hparent _ ih =>
    rcases List.mem_cons.mp h with rfl | h
    · exact ⟨Nat.le_refl _, Nat.le_refl _⟩
    · have hout := ih (htree.contains_parent hparent) h
      have hin := hnested.inside (htree.parent?_eq_some_iff.mp hparent)
      omega

/-- Any two children of `parent` lie one behind the other, not only neighbours. -/
theorem pairwise_children (parent : NodeId) : (tree.children parent).Pairwise fun l r =>
    (tree.range l).stop ≤ (tree.range r).start := by
  have hcontains : ∀ child ∈ tree.children parent, tree.contains child = true :=
    fun child hchild => htree.contains_child hchild
  have hchain := hnested.ordered parent
  generalize tree.children parent = children at hcontains hchain
  induction children with
  | nil => exact .nil
  | cons first rest ih =>
    obtain ⟨-, hrest⟩ := List.forall_mem_cons.mp hcontains
    have hpairs := ih hrest (List.IsChain.tail hchain)
    refine List.pairwise_cons.mpr ⟨fun child hchild => ?_, hpairs⟩
    cases rest with
    | nil => cases hchild
    | cons second rest =>
      have hnext := (List.isChain_cons_cons.mp hchain).1
      rcases List.mem_cons.mp hchild with rfl | hchild
      · exact hnext
      · have hsecond := hnested.start_le_stop (hrest second List.mem_cons_self)
        have hbehind := (List.pairwise_cons.mp hpairs).1 child hchild
        omega

/-- Of two nodes `x` and `y` in document order the first is above the second, or ends before it
begins. -/
theorem pairwise_descendants (hid : tree.contains id = true) :
    (tree.descendants id).Pairwise fun x y =>
      x ∈ tree.ancestors y ∨ (tree.range x).stop ≤ (tree.range y).start := by
  induction id, hid using htree.induction_below with
  | step id hid ih =>
    have hin : ∀ {child x}, child ∈ tree.children id → x ∈ tree.descendants child →
        (tree.range child).start ≤ (tree.range x).start ∧
          (tree.range x).stop ≤ (tree.range child).stop := fun {child x} hchild hx => by
      have hcontains := htree.contains_child hchild
      exact hnested.contains_of_mem_ancestors htree
        (htree.contains_of_mem_descendants hcontains x hx)
        (htree.mem_ancestors_of_mem_descendants hcontains x hx)
    have hdown := htree.mem_ancestors_of_mem_descendants hid
    rw [htree.descendants_eq hid] at hdown ⊢
    refine List.pairwise_cons.mpr ⟨fun x hx => .inl (hdown x (List.mem_cons_of_mem _ hx)), ?_⟩
    refine List.pairwise_flatMap.mpr ⟨ih, ?_⟩
    refine (hnested.pairwise_children htree id).imp_of_mem fun {l r} hl hr hle x hx y hy => .inr ?_
    have hxl := hin hl hx
    have hyr := hin hr hy
    omega

/-- In document order the beginnings of nodes do not decrease: `x` stands before `y`. -/
theorem pairwise_start_descendants (hid : tree.contains id = true) :
    (tree.descendants id).Pairwise fun x y => (tree.range x).start ≤ (tree.range y).start := by
  refine (hnested.pairwise_descendants htree hid).imp_of_mem fun {x y} hx hy hxy => ?_
  have hx := htree.contains_of_mem_descendants hid x hx
  have hy := htree.contains_of_mem_descendants hid y hy
  rcases hxy with habove | hle
  · exact (hnested.contains_of_mem_ancestors htree hy habove).1
  · exact Nat.le_trans (hnested.start_le_stop hx) hle

end Nested

end Tree

end TreeLint
