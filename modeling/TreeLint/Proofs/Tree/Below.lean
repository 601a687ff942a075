import TreeLint.Proofs.Tree.Sound

/-!
# Below a node

In a sound tree the bounds of the two walks cut nothing off: a node is at the front of its ancestors
and its descendants, and what follows are the ancestors of its parent and the descendants of its
children.

* `Sound.induction_below`: what holds of a node if it holds of its children holds of all nodes.
* `Sound.descendants_eq`: the descendants of a node, without a bound.
* `Sound.nodup_descendants`, `Sound.perm_descendants_root`: no node is met twice, and from the root
  all are met.
-/

namespace TreeLint

namespace Tree

namespace Sound

variable {tree : Tree} (htree : tree.Sound) {id : NodeId}

include htree

/-- A node `id` is in front of its ancestors, and its parent, if it has one, is next. -/
theorem ancestors_eq (hid : tree.contains id = true) :
    tree.ancestors id = id :: ((tree.parent? id).map tree.ancestors).getD [] := by
  have hclimbs := htree.climbs_ancestors hid
  cases hparent : tree.parent? id with
  | none => exact hclimbs.unique (.top hparent)
  | some parent =>
    exact hclimbs.unique (.up hparent (htree.climbs_ancestors (htree.contains_parent hparent)))

theorem ancestors_root : tree.ancestors tree.root = [tree.root] := by
  rw [htree.ancestors_eq htree.contains_root, htree.parent?_root]
  rfl

/-- The ancestors of `child` are those of `parent`, with `child` in front. -/
theorem ancestors_child {parent child : NodeId} (hchild : child ∈ tree.children parent) :
    tree.ancestors child = child :: tree.ancestors parent := by
  rw [htree.ancestors_eq (htree.contains_child hchild), htree.parent?_eq_some_iff.mpr hchild]
  rfl

theorem length_ancestors_le (hid : tree.contains id = true) :
    (tree.ancestors id).length ≤ tree.size :=
  (htree.climbs_ancestors hid).length_le htree hid

/-- Induction from the leaves up (`step`). Ways have no more nodes than the tree, so they end. -/
theorem induction_below {P : (id : NodeId) → tree.contains id = true → Prop}
    (step : ∀ id hid, (∀ child (hchild : child ∈ tree.children id),
      P child (htree.contains_child hchild)) → P id hid)
    (id : NodeId) (hid : tree.contains id = true) : P id hid := by
  induction hn : tree.size - (tree.ancestors id).length using Nat.strong_induction_on
    generalizing id with
  | _ n ih =>
    subst hn
    refine step id hid fun child hchild => ih _ ?_ child _ rfl
    have hle := htree.length_ancestors_le (htree.contains_child hchild)
    rw [htree.ancestors_child hchild, List.length_cons] at hle ⊢
    omega

/-- A bound that leaves room for all nodes below `id` can be raised. -/
theorem descendantsWithin_succ {bound : Nat} (hid : tree.contains id = true)
    (hbound : tree.size < (tree.ancestors id).length + bound) :
    tree.descendantsWithin (bound + 1) id = tree.descendantsWithin bound id := by
  induction bound generalizing id with
  | zero =>
    have hle := htree.length_ancestors_le hid
    omega
  | succ bound ih =>
    rw [descendantsWithin, descendantsWithin]
    congr 1
    refine List.flatMap_congr fun child hchild => ih (htree.contains_child hchild) ?_
    rw [htree.ancestors_child hchild, List.length_cons]
    omega

/-- The node `id` is met first, then its children one by one, each with all below it. -/
theorem descendants_eq (hid : tree.contains id = true) :
    tree.descendants id = id :: (tree.children id).flatMap tree.descendants := by
  have hpos : 0 < (tree.ancestors id).length :=
    List.length_pos_of_mem (htree.climbs_ancestors hid).mem_self
  have hsucc := htree.descendantsWithin_succ hid (Nat.lt_add_of_pos_left hpos)
  rw [descendants, ← hsucc, descendantsWithin]
  rfl

theorem contains_of_mem_descendants (hid : tree.contains id = true) :
    ∀ x ∈ tree.descendants id, tree.contains x = true := by
  induction id, hid using htree.induction_below with
  | step id hid ih =>
    rw [htree.descendants_eq hid]
    refine List.forall_mem_cons.mpr ⟨hid, fun x hx => ?_⟩
    obtain ⟨child, hchild, hx⟩ := List.mem_flatMap.mp hx
    exact ih child hchild x hx

/-- The node `id` is an ancestor of all its descendants `x`. -/
theorem mem_ancestors_of_mem_descendants (hid : tree.contains id = true) :
    ∀ x ∈ tree.descendants id, id ∈ tree.ancestors x := by
  induction id, hid using htree.induction_below with
  | step id hid ih =>
    rw [htree.descendants_eq hid]
    refine List.forall_mem_cons.mpr ⟨(htree.climbs_ancestors hid).mem_self, fun x hx => ?_⟩
    obtain ⟨child, hchild, hx⟩ := List.mem_flatMap.mp hx
    have hcontains := htree.contains_of_mem_descendants (htree.contains_child hchild) x hx
    -- The way up from `x` passes `child` and goes on as the way up from there.
    obtain ⟨rest, hrest, hclimbs⟩ :=
      (htree.climbs_ancestors hcontains).exists_suffix (ih child hchild x hx)
    have heq := hclimbs.unique (htree.climbs_ancestors (htree.contains_child hchild))
    rw [heq, htree.ancestors_child hchild] at hrest
    exact hrest.subset (List.mem_cons_of_mem child (htree.climbs_ancestors hid).mem_self)

/-- A `child` of a descendant, `parent`, is a descendant. -/
theorem mem_descendants_of_mem_children {parent child : NodeId} (hid : tree.contains id = true)
    (hchild : child ∈ tree.children parent) :
    parent ∈ tree.descendants id → child ∈ tree.descendants id := by
  induction id, hid using htree.induction_below with
  | step id hid ih =>
    rw [htree.descendants_eq hid]
    rintro (_ | ⟨_, hparent⟩)
    · have hcontains := htree.contains_child hchild
      refine List.mem_cons_of_mem _ (List.mem_flatMap.mpr ⟨child, hchild, ?_⟩)
      rw [htree.descendants_eq hcontains]
      exact List.mem_cons_self
    · obtain ⟨top, htop, hparent⟩ := List.mem_flatMap.mp hparent
      exact List.mem_cons_of_mem id (List.mem_flatMap.mpr ⟨top, htop, ih top htop hparent⟩)

/-- All nodes `x` are descendants of the root. -/
theorem mem_descendants_root {x : NodeId} (hx : tree.contains x = true) :
    x ∈ tree.descendants tree.root := by
  induction htree.reached x hx with
  | refl =>
    rw [htree.descendants_eq htree.contains_root]
    exact List.mem_cons_self
  | tail _ hchild ih =>
    have hparent := htree.contains_parent (htree.parent?_eq_some_iff.mpr hchild)
    exact htree.mem_descendants_of_mem_children htree.contains_root hchild (ih hparent)

/-- Two children `c` and `d` with a common descendant `x` are one: the ways up from them are parts
of one way, and of the same length. -/
theorem child_unique {parent c d x : NodeId} (hc : c ∈ tree.children parent)
    (hd : d ∈ tree.children parent) (hxc : x ∈ tree.descendants c) (hxd : x ∈ tree.descendants d) :
    c = d := by
  have hcontains := htree.contains_of_mem_descendants (htree.contains_child hc) x hxc
  have hway := htree.climbs_ancestors hcontains
  have hsuffix : ∀ {child}, child ∈ tree.children parent → x ∈ tree.descendants child →
      child :: tree.ancestors parent <:+ tree.ancestors x := by
    intro child hchild hx
    obtain ⟨rest, hrest, hclimbs⟩ := hway.exists_suffix
      (htree.mem_ancestors_of_mem_descendants (htree.contains_child hchild) x hx)
    rwa [hclimbs.unique (htree.climbs_ancestors (htree.contains_child hchild)),
      htree.ancestors_child hchild] at hrest
  have heq := (List.suffix_of_suffix_length_le (hsuffix hc hxc) (hsuffix hd hxd)
    (by simp)).eq_of_length (by simp)
  exact (List.cons.inj heq).1

theorem nodup_descendants (hid : tree.contains id = true) : (tree.descendants id).Nodup := by
  induction id, hid using htree.induction_below with
  | step id hid ih =>
    rw [htree.descendants_eq hid, List.nodup_cons, List.nodup_flatMap]
    refine ⟨fun hmem => ?_, ih, ?_⟩
    · -- A child of `id` would be one of its ancestors.
      obtain ⟨child, hchild, hmem⟩ := List.mem_flatMap.mp hmem
      have hup := htree.mem_ancestors_of_mem_descendants (htree.contains_child hchild) id hmem
      have hnodup := (htree.climbs_ancestors (htree.contains_child hchild)).nodup
      rw [htree.ancestors_child hchild] at hnodup
      exact (List.nodup_cons.mp hnodup).1 hup
    · refine (htree.nodup_children id).imp_of_mem fun {c d} hc hd hne => ?_
      exact fun x hxc hxd => hne (htree.child_unique hc hd hxc hxd)

/-- From the root every node of `tree` is met once. -/
theorem perm_descendants_root : (tree.descendants tree.root).Perm tree.ids := by
  have hids : tree.ids.Nodup := List.nodup_range.map fun i j h => by simpa using h
  refine (List.perm_ext_iff_of_nodup (htree.nodup_descendants htree.contains_root) hids).mpr
    fun x => ?_
  rw [mem_ids]
  exact ⟨htree.contains_of_mem_descendants htree.contains_root x, htree.mem_descendants_root⟩

end Sound

end Tree

end TreeLint
