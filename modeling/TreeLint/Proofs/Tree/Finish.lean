import Mathlib.Data.List.Chain
import TreeLint.Proofs.Text.Boundary
import TreeLint.Proofs.Tree.Reach

/-!
# What `Builder.finish` accepts

Each check of `Builder.finish` is said here in terms of ranges and links, and `finish` itself as all
of them together.

* `Builder.IsTree`: ranges that fit and nest, and links that lead from the root to every node once.
* `finish_eq_ok_iff`: a root without a parent is accepted exactly in an `IsTree`.
* `finish_ne_danglingLink`: when links lead to nodes, no check follows one that does not.
-/

namespace TreeLint

namespace Builder

variable {b : Builder} {root id : NodeId} {source : List Char}

/-- The source range of the node `id`; empty for a place outside the builder `b`. -/
def range (b : Builder) (id : NodeId) : Span := (b.range? id).getD (.point 0)

/-- The nodes of a builder form a tree below `root`. -/
structure IsTree (b : Builder) (root : NodeId) : Prop where
  /-- The range of a node lies in the source, forwards, on character boundaries. -/
  fits : ∀ id, b.contains id = true →
    (b.range id).start ≤ (b.range id).stop ∧ (b.range id).stop ≤ Text.byteSize b.source.toList ∧
      Text.Boundary b.source.toList (b.range id).start ∧
      Text.Boundary b.source.toList (b.range id).stop
  /-- The children of a node lie inside it. -/
  inside : ∀ parent child, b.contains parent = true → child ∈ b.children parent →
    (b.range parent).start ≤ (b.range child).start ∧ (b.range child).stop ≤ (b.range parent).stop
  /-- Each child of a node begins at or after the end of the one in front of it. -/
  ordered : ∀ parent, b.contains parent = true →
    (b.children parent).IsChain fun l r => (b.range l).stop ≤ (b.range r).start
  /-- Every node but the root occurs once in the children of all nodes. -/
  once : ∀ id, b.contains id = true → id ≠ root → b.allChildren.count id = 1
  /-- The links lead from the root to every node. -/
  reached : ∀ id, b.contains id = true → Relation.ReflTransGen b.Link root id

theorem range_of_getElem? {node : Node} (h : b.nodes[id.index]? = some node) :
    b.range id = node.range := by
  simp [range, range?, h]

theorem children_of_getElem? {node : Node} (h : b.nodes[id.index]? = some node) :
    b.children id = node.children := by
  simp [children, h]

/-! ## Ranges -/

/-- The `children` pass when they are nodes inside the parent `node`, each beginning no earlier than
what was `reached` before it. -/
theorem checkChildren_eq_ok_iff {node : Node} {reached : Nat} {children : List NodeId} :
    b.checkChildren id node reached children = .ok () ↔
      (∀ child ∈ children, b.contains child = true ∧
        node.range.contains (b.range child) = true) ∧
      ((Span.point reached) :: children.map b.range).IsChain fun l r => l.stop ≤ r.start := by
  induction children generalizing reached with
  | nil => simp [checkChildren]
  | cons child rest ih =>
    unfold checkChildren
    cases hchild : b.nodes[child.index]? with
    | none =>
      have hnot : b.contains child = false := by simpa [contains] using hchild
      simp [hnot]
    | some childNode =>
      have hcontains : b.contains child = true := contains_iff.mpr ⟨childNode, hchild⟩
      have hrange := range_of_getElem? hchild
      by_cases hinside : node.range.contains childNode.range = true
      · by_cases hbefore : childNode.range.start < reached
        · simp [hinside, hbefore, hrange, Span.point, Nat.not_le.mpr hbefore]
        · -- The children behind see only where this one ends.
          have hpoint : ∀ l : List Span,
              ((Span.point childNode.range.stop) :: l).IsChain (fun l r => l.stop ≤ r.start) ↔
                (childNode.range :: l).IsChain (fun l r => l.stop ≤ r.start) := by
            intro l
            cases l <;> simp [Span.point]
          have hstop : (Span.point reached).stop ≤ childNode.range.start := Nat.le_of_not_lt hbefore
          simp only [hinside, Bool.not_true, Bool.false_eq_true, if_false, hbefore, ih,
            List.forall_mem_cons, hcontains, hrange, List.map_cons, List.isChain_cons_cons, hpoint,
            hstop, true_and]
      · simp [hinside, hrange]

theorem checkNode_eq_ok_iff {node : Node} (h : b.nodes[id.index]? = some node) :
    b.checkNode source id node = .ok () ↔
      (b.range id).fits source = true ∧
      (∀ child ∈ b.children id, b.contains child = true ∧
        (b.range id).contains (b.range child) = true) ∧
      (b.children id).IsChain fun l r => (b.range l).stop ≤ (b.range r).start := by
  rw [range_of_getElem? h, children_of_getElem? h]
  unfold checkNode
  by_cases hfits : node.range.fits source = true
  · rw [if_pos hfits, checkChildren_eq_ok_iff]
    simp only [hfits, true_and]
    refine and_congr_right fun hinside => ?_
    -- The first child lies inside its parent, so it begins no earlier.
    cases hchildren : node.children with
    | nil => simp
    | cons child rest =>
      have hfirst := (hinside child (by simp [hchildren])).2
      simp only [Span.contains, Bool.and_eq_true, decide_eq_true_eq] at hfirst
      rw [List.map_cons, List.isChain_cons_cons, ← List.map_cons, List.isChain_map]
      simp [Span.point, hfirst.1]
  · simp [hfits]

theorem checkNodes_eq_ok_iff {index : Nat} {nodes : List Node} :
    b.checkNodes source index nodes = .ok () ↔
      ∀ i node, nodes[i]? = some node → b.checkNode source ⟨index + i⟩ node = .ok () := by
  induction nodes generalizing index with
  | nil => simp [checkNodes]
  | cons node rest ih =>
    unfold checkNodes
    cases hnode : b.checkNode source ⟨index⟩ node with
    | error e =>
      simp only [reduceCtorEq, false_iff]
      intro hall
      have h0 := hall 0 node rfl
      rw [Nat.add_zero, hnode] at h0
      cases h0
    | ok u =>
      simp only [ih]
      constructor
      · rintro hall (_ | i) x hx
        · obtain rfl : node = x := by simpa using hx
          exact hnode
        · rw [show index + (i + 1) = index + 1 + i by omega]
          exact hall i x (by simpa using hx)
      · intro hall i x hx
        rw [show index + 1 + i = index + (i + 1) by omega]
        exact hall (i + 1) x (by simpa using hx)

/-- All nodes pass when the range of each `id` fits `source` and its children lie in it, in
order. -/
theorem checkNodes_eq_ok_iff_forall : b.checkNodes source 0 b.nodes.toList = .ok () ↔
    ∀ id, b.contains id = true → (b.range id).fits source = true ∧
      (∀ child ∈ b.children id, b.contains child = true ∧
        (b.range id).contains (b.range child) = true) ∧
      (b.children id).IsChain fun l r => (b.range l).stop ≤ (b.range r).start := by
  rw [checkNodes_eq_ok_iff]
  constructor
  · rintro hall ⟨i⟩ hid
    obtain ⟨node, hnode⟩ := contains_iff.mp hid
    have hi := hall i node (by simpa using hnode)
    rw [Nat.zero_add] at hi
    exact (checkNode_eq_ok_iff hnode).mp hi
  · intro hall i node hnode
    have hget : b.nodes[(⟨i⟩ : NodeId).index]? = some node := by simpa using hnode
    rw [Nat.zero_add]
    exact (checkNode_eq_ok_iff hget).mpr (hall ⟨i⟩ (contains_iff.mpr ⟨node, hget⟩))

/-! ## All checks -/

theorem finish_eq_ok_iff_checks {tree : Tree} : b.finish root = .ok tree ↔
    b.contains root = true ∧ b.parent? root = none ∧
      b.checkNodes b.source.toList 0 b.nodes.toList = .ok () ∧ b.checkReach root = .ok () ∧
      tree = ⟨b.path, b.source, b.nodes, root⟩ := by
  unfold finish
  cases hroot : b.nodes[root.index]? with
  | none =>
    have hnot : b.contains root = false := by simpa [contains] using hroot
    simp [hnot]
  | some rootNode =>
    have hcontains : b.contains root = true := contains_iff.mpr ⟨rootNode, hroot⟩
    have hparent : b.parent? root = rootNode.parent := by simp [parent?, hroot]
    rw [hparent]
    cases hup : rootNode.parent with
    | some above => simp [hup]
    | none =>
      cases b.checkNodes b.source.toList 0 b.nodes.toList with
      | error e => simp [hup]
      | ok u =>
        cases b.checkReach root with
        | error e => simp [hup]
        | ok v => simp [hup, hcontains, eq_comm]

/-- All nodes once: `root` in front, and every other node `id` in the list of one parent. -/
theorem perm_ids_iff (hcontains : b.contains root = true) (hroot : root ∉ b.allChildren)
    (hclosed : ∀ {parent child}, child ∈ b.children parent → b.contains child = true) :
    (root :: b.allChildren).Perm b.ids ↔
      ∀ id, b.contains id = true → id ≠ root → b.allChildren.count id = 1 := by
  constructor
  · intro hperm id hid hne
    have hcount := hperm.count_eq id
    rwa [List.count_cons_of_ne hne.symm,
      List.count_eq_one_of_mem (nodup_ids b) (mem_ids.mpr hid)] at hcount
  · intro honce
    rw [List.perm_iff_count]
    intro id
    by_cases hid : b.contains id = true
    · rw [List.count_eq_one_of_mem (nodup_ids b) (mem_ids.mpr hid)]
      by_cases hne : id = root
      · subst hne
        rw [List.count_cons_self, List.count_eq_zero_of_not_mem hroot]
      · rw [List.count_cons_of_ne (Ne.symm hne), honce id hid hne]
    · rw [List.count_eq_zero_of_not_mem (fun h => hid (mem_ids.mp h)),
        List.count_eq_zero_of_not_mem]
      rintro (_ | ⟨_, hmem⟩)
      · exact hid hcontains
      · obtain ⟨parent, -, hchild⟩ := mem_allChildren.mp hmem
        exact hid (hclosed hchild)

/-- A `root` that no node has for a child is accepted exactly when the nodes form a tree below it
(`IsTree`). -/
theorem finish_eq_ok_iff {tree : Tree} (hb : b.Linked) (hroot : b.contains root = true) :
    b.finish root = .ok tree ↔
      b.parent? root = none ∧ b.IsTree root ∧ tree = ⟨b.path, b.source, b.nodes, root⟩ := by
  rw [finish_eq_ok_iff_checks, checkNodes_eq_ok_iff_forall, checkReach_eq_ok_iff]
  simp only [hroot, true_and]
  refine and_congr_right fun hparent => ?_
  have hnot : root ∉ b.allChildren := fun h => by
    obtain ⟨parent, -, hchild⟩ := mem_allChildren.mp h
    simpa [hparent] using hb.isSome_parent? hchild
  rw [perm_ids_iff hroot hnot hb.contains_child]
  constructor
  · rintro ⟨hnodes, ⟨honce, hreached⟩, rfl⟩
    refine ⟨⟨fun id hid => Span.fits_iff.mp (hnodes id hid).1, fun parent child hid hchild => ?_,
      fun id hid => (hnodes id hid).2.2, honce, hreached⟩, rfl⟩
    simpa [Span.contains] using ((hnodes parent hid).2.1 child hchild).2
  · rintro ⟨htree, rfl⟩
    refine ⟨fun id hid => ⟨Span.fits_iff.mpr (htree.fits id hid), fun child hchild => ?_,
      htree.ordered id hid⟩, ⟨htree.once, htree.reached⟩, rfl⟩
    exact ⟨hb.contains_child hchild, by simpa [Span.contains] using htree.inside id child hid hchild⟩

/-! ## Links that lead nowhere -/

theorem not_contains_of_checkChildren {node : Node} {reached : Nat} {children : List NodeId}
    {target : NodeId} (h : b.checkChildren id node reached children = .error (.danglingLink target)) :
    target ∈ children ∧ b.contains target = false := by
  induction children generalizing reached with
  | nil => simp [checkChildren] at h
  | cons child rest ih =>
    unfold checkChildren at h
    cases hchild : b.nodes[child.index]? with
    | none =>
      obtain rfl : child = target := by simpa [hchild] using h
      exact ⟨List.mem_cons_self, by simpa [contains] using hchild⟩
    | some childNode =>
      simp only [hchild] at h
      split at h
      · cases h
      · split at h
        · cases h
        · exact (ih h).imp_left (List.mem_cons_of_mem child)

theorem not_contains_of_checkNodes {index : Nat} {nodes : List Node} {target : NodeId}
    (h : b.checkNodes source index nodes = .error (.danglingLink target)) :
    (∃ node ∈ nodes, target ∈ node.children) ∧ b.contains target = false := by
  induction nodes generalizing index with
  | nil => simp [checkNodes] at h
  | cons node rest ih =>
    unfold checkNodes at h
    cases hnode : b.checkNode source ⟨index⟩ node with
    | ok u =>
      simp only [hnode] at h
      obtain ⟨⟨x, hx, hchild⟩, hnot⟩ := ih h
      exact ⟨⟨x, List.mem_cons_of_mem node hx, hchild⟩, hnot⟩
    | error e =>
      obtain rfl : e = .danglingLink target := by simpa [hnode] using h
      unfold checkNode at hnode
      split at hnode
      · obtain ⟨hchild, hnot⟩ := not_contains_of_checkChildren hnode
        exact ⟨⟨node, List.mem_cons_self, hchild⟩, hnot⟩
      · cases hnode

theorem not_contains_of_reach {met pending : List NodeId} {target : NodeId}
    (h : b.reach met pending = .error (.danglingLink target)) :
    (target ∈ pending ∨ ∃ parent, target ∈ b.children parent) ∧ b.contains target = false := by
  fun_induction reach b met pending with
  | case1 => cases h
  | case2 => cases h
  | case3 met id pending _ _ ih =>
    obtain ⟨hmem | hchild, hnot⟩ := ih h
    · rcases List.mem_append.mp hmem with hchild | hpending
      · exact ⟨.inr ⟨id, List.mem_reverse.mp hchild⟩, hnot⟩
      · exact ⟨.inl (List.mem_cons_of_mem id hpending), hnot⟩
    · exact ⟨.inr hchild, hnot⟩
  | case4 met id pending hid =>
    obtain rfl : id = target := by simpa using h
    exact ⟨.inl List.mem_cons_self, by simpa using hid⟩

theorem reach_of_checkReach {target : NodeId}
    (h : b.checkReach root = .error (.danglingLink target)) :
    b.reach [] [root] = .error (.danglingLink target) := by
  unfold checkReach at h
  cases hwalk : b.reach [] [root] with
  | error e => simpa [hwalk] using h
  | ok met =>
    simp only [hwalk] at h
    split at h <;> cases h

/-- No check follows a link to a place `target` without a node, since there is no such link. -/
theorem finish_ne_danglingLink (hb : b.Linked) (hroot : b.contains root = true) (target : NodeId) :
    b.finish root ≠ .error (.danglingLink target) := by
  intro h
  have hclosed : ∀ {parent}, target ∈ b.children parent → b.contains target = false → False :=
    fun hchild hnot => by simp [hb.contains_child hchild] at hnot
  unfold finish at h
  split at h
  · cases h
  · split at h
    · cases h
    · split at h
      · rename_i e hnodes
        cases h
        obtain ⟨⟨node, hnode, hchild⟩, hnot⟩ := not_contains_of_checkNodes hnodes
        obtain ⟨i, hi⟩ := List.mem_iff_getElem?.mp hnode
        have hget : b.nodes[(⟨i⟩ : NodeId).index]? = some node := by simpa using hi
        exact hclosed (children_of_getElem? hget ▸ hchild) hnot
      · split at h
        · rename_i e hreach
          cases h
          obtain ⟨hmem | ⟨parent, hchild⟩, hnot⟩ :=
            not_contains_of_reach (reach_of_checkReach hreach)
          · rw [List.mem_singleton.mp hmem, hroot] at hnot
            cases hnot
          · exact hclosed hchild hnot
        · cases h

end Builder

end TreeLint
