import TreeLint.Proofs.Tree.Nesting
import TreeLint.Proofs.Tree.Renumbering
import TreeLint.Proofs.Unit.Loading
import TreeLint.Unit.Render

/-!
# The document of a tree

A tree with links that agree has a document, and what the document makes is the tree again, its
nodes counted in document order.

- `NodeDocument.ofNode?_eq`: the document of a node, without a bound.
- `forall₂_preorder`: the nodes of the document are those of the tree, in document order.
- `height_le_iff`: a document is as high as the longest way up in the tree.
- `UnitDocument.renumbered_of_build`: the tree that the document makes.
-/

namespace TreeLint

namespace NodeDocument

variable {tree : Tree} {types : TypeTable} {id : NodeId} {d : NodeDocument}

/-- The document of the node `id` from the documents of its children. -/
def ofNode (tree : Tree) (types : TypeTable) (id : NodeId) (node : Node) : NodeDocument where
  kind := node.kind
  range := node.range
  name := node.name
  binding := (types.binding? id).map (BindingDocument.ofBinding types)
  suppressions := node.suppressions
  children := node.children.filterMap (ofNode? tree types)

section

variable (htree : tree.Sound)

include htree

/-- A bound that leaves room for all nodes below `id` can be raised. -/
theorem ofNodeWithin_succ (types : TypeTable) {bound : Nat} (hid : tree.contains id = true)
    (hbound : tree.size < (tree.ancestors id).length + bound) :
    ofNodeWithin tree types (bound + 1) id = ofNodeWithin tree types bound id := by
  induction bound generalizing id with
  | zero =>
    have hle := htree.length_ancestors_le hid
    omega
  | succ bound ih =>
    rw [ofNodeWithin, ofNodeWithin]
    cases hnode : tree.node? id with
    | none => rfl
    | some node =>
      have hchildren := Tree.children_of_node? hnode
      -- A step down takes one of the bound and puts one node more on the way up.
      have hbelow : node.children.filterMap (ofNodeWithin tree types (bound + 1)) =
          node.children.filterMap (ofNodeWithin tree types bound) := by
        refine List.filterMap_congr fun child hchild => ?_
        rw [← hchildren] at hchild
        refine ih (htree.contains_child hchild) ?_
        rw [htree.ancestors_child hchild, List.length_cons]
        omega
      rw [Option.map_some, Option.map_some, hbelow]

theorem ofNode?_eq (hid : tree.contains id = true) :
    ofNode? tree types id = (tree.node? id).map (ofNode tree types id) := by
  have hpos : 0 < (tree.ancestors id).length :=
    List.length_pos_of_mem (htree.climbs_ancestors hid).mem_self
  have hsucc := ofNodeWithin_succ htree types hid (Nat.lt_add_of_pos_left hpos)
  rw [ofNode?, ← hsucc, ofNodeWithin]
  rfl

theorem exists_ofNode? (types : TypeTable) (hid : tree.contains id = true) :
    ∃ d, ofNode? tree types id = some d := by
  rw [Tree.contains_eq_isSome, Option.isSome_iff_exists] at hid
  obtain ⟨node, hnode⟩ := hid
  refine ⟨ofNode tree types id node, ?_⟩
  rw [ofNode?_eq htree (by rw [Tree.contains_eq_isSome, hnode]; rfl), hnode]
  rfl

theorem exists_node (hid : tree.contains id = true) (hd : ofNode? tree types id = some d) :
    ∃ node, tree.node? id = some node ∧ d = ofNode tree types id node := by
  rw [ofNode?_eq htree hid] at hd
  obtain ⟨node, hnode, rfl⟩ := Option.map_eq_some_iff.mp hd
  exact ⟨node, hnode, rfl⟩

theorem range_ofNode? (hid : tree.contains id = true) (hd : ofNode? tree types id = some d) :
    d.range = tree.range id := by
  obtain ⟨node, hnode, rfl⟩ := exists_node htree hid hd
  rw [Tree.range, hnode]
  rfl

/-- The children of the document `d` are the documents of the children of `id`. -/
theorem forall₂_ofNode? (hid : tree.contains id = true) (hd : ofNode? tree types id = some d) :
    List.Forall₂ (fun child e => ofNode? tree types child = some e) (tree.children id)
      d.children := by
  obtain ⟨node, hnode, rfl⟩ := exists_node htree hid hd
  have hchildren := Tree.children_of_node? hnode
  have hcontains : ∀ child ∈ tree.children id, tree.contains child = true :=
    fun child hchild => htree.contains_child hchild
  rw [hchildren] at hcontains ⊢
  change List.Forall₂ _ node.children (node.children.filterMap (ofNode? tree types))
  generalize node.children = children at hcontains
  induction children with
  | nil => exact .nil
  | cons child rest ih =>
    obtain ⟨hchild, hrest⟩ := List.forall_mem_cons.mp hcontains
    obtain ⟨e, he⟩ := exists_ofNode? htree types hchild
    rw [List.filterMap_cons_some he]
    exact .cons he (ih hrest)

/-- The nodes of the document `d` are the documents of the nodes, in document order. -/
theorem forall₂_preorder (hid : tree.contains id = true) (hd : ofNode? tree types id = some d) :
    List.Forall₂ (fun x e => ofNode? tree types x = some e) (tree.descendants id) d.preorder := by
  induction id, hid using htree.induction_below generalizing d with
  | step id hid ih =>
    have hchildren := forall₂_ofNode? htree hid hd
    rw [htree.descendants_eq hid, preorder_eq]
    refine .cons hd ?_
    generalize tree.children id = children at hchildren ih
    generalize d.children = docs at hchildren
    induction hchildren with
    | nil => exact .nil
    | cons hchild _ ihrest =>
      rw [List.flatMap_cons, preorderAll]
      exact List.rel_append (ih _ List.mem_cons_self hchild)
        (ihrest fun child hchild => ih child (List.mem_cons_of_mem _ hchild))

theorem size_ofNode? (hid : tree.contains id = true) (hd : ofNode? tree types id = some d) :
    d.size = (tree.descendants id).length :=
  (forall₂_preorder htree hid hd).length_eq.symm

/-- A document has at most `n` levels when no way up from below `id` passes `n` nodes before it
comes to the parent of `id`. -/
theorem height_le_iff (hid : tree.contains id = true) (hd : ofNode? tree types id = some d)
    {n : Nat} : d.height ≤ n ↔
      ∀ x ∈ tree.descendants id, (tree.ancestors x).length < n + (tree.ancestors id).length := by
  induction id, hid using htree.induction_below generalizing d n with
  | step id hid ih =>
    have hchildren := forall₂_ofNode? htree hid hd
    have hbelow : ∀ child ∈ tree.children id,
        (tree.ancestors child).length = (tree.ancestors id).length + 1 := fun child hchild => by
      rw [htree.ancestors_child hchild, List.length_cons]
    obtain ⟨kind, range, name, binding, suppressions, docs⟩ := d
    rw [height, htree.descendants_eq hid, List.forall_mem_cons, List.forall_mem_flatMap]
    cases n with
    | zero => omega
    | succ n =>
      have hself : (tree.ancestors id).length < n + 1 + (tree.ancestors id).length := by omega
      rw [Nat.add_le_add_iff_right, and_iff_right hself]
      clear hd
      simp only at hchildren
      -- What is left is about the children, one behind the other.
      generalize tree.children id = children at hchildren ih hbelow
      induction hchildren with
      | nil => simp [heightAll]
      | @cons child doc children docs hchild _ ihrest =>
        have hrest : heightAll docs ≤ n ↔ ∀ child ∈ children, ∀ x ∈ tree.descendants child,
            (tree.ancestors x).length < n + 1 + (tree.ancestors id).length :=
          ihrest (fun child hchild => ih child (List.mem_cons_of_mem _ hchild))
            fun child hchild => hbelow child (List.mem_cons_of_mem _ hchild)
        have hdoc := ih child List.mem_cons_self hchild (n := n)
        rw [hbelow child List.mem_cons_self] at hdoc
        rw [heightAll, Nat.max_le, hrest, hdoc, List.forall_mem_cons]
        refine and_congr_left fun _ => forall₂_congr fun x _ => ?_
        omega

/-- Where the nodes of a tree are counted as `all` lists them, the documents of siblings stand at
the places of the siblings. -/
theorem places_eq {all : List NodeId} (hall : all.Nodup) {first : Nat} {ids : List NodeId}
    {docs : List NodeDocument} (hids : ∀ id ∈ ids, tree.contains id = true)
    (hdocs : List.Forall₂ (fun id d => ofNode? tree types id = some d) ids docs)
    (hstands : ids.flatMap tree.descendants <+: all.drop first) :
    places first docs = ids.map fun id => ⟨all.idxOf id⟩ := by
  induction hdocs generalizing first with
  | nil => rfl
  | @cons id d ids docs hd _ ih =>
    obtain ⟨hid, hrest⟩ := List.forall_mem_cons.mp hids
    obtain ⟨behind, hbehind⟩ := hstands
    rw [List.flatMap_cons, List.append_assoc] at hbehind
    have hfirst : all[first]? = some id := by
      have hhead := congrArg (·[0]?) hbehind
      simpa [htree.descendants_eq hid] using hhead.symm
    obtain ⟨hlt, hget⟩ := List.getElem?_eq_some_iff.mp hfirst
    have hindex : all.idxOf id = first := by rw [← hget, hall.idxOf_getElem]
    -- The document of `id` has as many nodes as there are below `id`, so the next sibling follows.
    have hnext : ids.flatMap tree.descendants <+: all.drop (first + d.size) := by
      rw [← List.drop_drop, ← hbehind, size_ofNode? htree hid hd, List.drop_left]
      exact ⟨behind, rfl⟩
    rw [places, List.map_cons, hindex, ih hrest hnext]

/-- The document `e` at the place `i` in document order is that of the node `x` at this place. -/
theorem exists_getElem?_preorder (hid : tree.contains id = true)
    (hd : ofNode? tree types id = some d) {i : Nat} {x : NodeId}
    (hx : (tree.descendants id)[i]? = some x) :
    ∃ e, d.preorder[i]? = some e ∧ ofNode? tree types x = some e := by
  obtain ⟨hlt, rfl⟩ := List.getElem?_eq_some_iff.mp hx
  have hall := forall₂_preorder htree hid hd
  have hlt' : i < d.preorder.length := hall.length_eq ▸ hlt
  exact ⟨d.preorder[i], List.getElem?_eq_getElem hlt', hall.get hlt hlt'⟩

/-- Every node `e` of a document is the document of a node `x`. -/
theorem exists_of_mem_preorder (hid : tree.contains id = true)
    (hd : ofNode? tree types id = some d) {e : NodeDocument} (he : e ∈ d.preorder) :
    ∃ x, tree.contains x = true ∧ ofNode? tree types x = some e := by
  obtain ⟨i, hi⟩ := List.mem_iff_getElem?.mp he
  obtain ⟨hlt, rfl⟩ := List.getElem?_eq_some_iff.mp hi
  have hall := forall₂_preorder htree hid hd
  have hlt' : i < (tree.descendants id).length := hall.length_eq ▸ hlt
  exact ⟨(tree.descendants id)[i], htree.contains_of_mem_descendants hid _ (List.getElem_mem hlt'),
    hall.get hlt' hlt⟩

/-- The ranges of a document `d` nest when those of the tree do. -/
theorem nests_of_ofNode? (hnested : tree.Nested) (hid : tree.contains id = true)
    (hd : ofNode? tree types id = some d) : d.Nests tree.source.toList := by
  have hranges : ∀ {ids docs}, (∀ x ∈ ids, tree.contains x = true) →
      List.Forall₂ (fun x e => ofNode? tree types x = some e) ids docs →
      docs.map NodeDocument.range = ids.map tree.range := by
    intro ids docs hids hdocs
    induction hdocs with
    | nil => rfl
    | cons he _ ih =>
      obtain ⟨hx, hrest⟩ := List.forall_mem_cons.mp hids
      rw [List.map_cons, List.map_cons, range_ofNode? htree hx he, ih hrest]
  rw [nests_iff, range_ofNode? htree hid hd,
    hranges (fun child hchild => htree.contains_child hchild) (forall₂_ofNode? htree hid hd),
    SpansNest, List.forall_mem_map, List.isChain_map]
  refine ⟨hnested.fits hid, fun child hchild => ?_, hnested.ordered id⟩
  simpa [Span.contains] using hnested.inside hchild

end

end NodeDocument

/-! ## The tree that the document makes -/

namespace UnitDocument

open NodeDocument

variable {tree tree' : Tree} {types types' : TypeTable} {doc : UnitDocument} {id : NodeId}
variable (htree : tree.Sound)

include htree

/-- The children of `d` are put where the document order has the children of the node `id`. -/
theorem places_children {i : Nat} {d : NodeDocument}
    (hi : (tree.descendants tree.root)[i]? = some id) (hid : tree.contains id = true)
    (hd : ofNode? tree types id = some d) :
    places (i + 1) d.children = (tree.children id).map htree.inOrder := by
  have hnodup := htree.nodup_descendants htree.contains_root
  have hcontains : ∀ child ∈ tree.children id, tree.contains child = true :=
    fun child hchild => htree.contains_child hchild
  obtain ⟨front, behind, hsplit⟩ := htree.descendants_infix_root hid
  have hfront : front.length = i := by
    obtain ⟨hlt, hget⟩ := List.getElem?_eq_some_iff.mp hi
    have hhead : (tree.descendants tree.root)[front.length]? = some id := by
      rw [← hsplit, List.append_assoc, List.getElem?_append_right (Nat.le_refl _), Nat.sub_self,
        htree.descendants_eq hid]
      rfl
    exact ((List.getElem?_inj hlt hnodup).mp (hi.trans hhead.symm)).symm
  have hstands : (tree.children id).flatMap tree.descendants <+:
      (tree.descendants tree.root).drop (i + 1) := by
    refine ⟨behind, ?_⟩
    rw [← List.drop_drop, ← hsplit, List.append_assoc, ← hfront, List.drop_left,
      htree.descendants_eq hid]
    rfl
  rw [places_eq htree hnodup hcontains (forall₂_ofNode? htree hid hd) hstands]
  refine List.map_congr_left fun child hchild => ?_
  obtain ⟨j, hj⟩ := List.mem_iff_getElem?.mp (htree.mem_descendants_root (hcontains child hchild))
  rw [htree.inOrder_eq hj]
  obtain ⟨hlt, rfl⟩ := List.getElem?_eq_some_iff.mp hj
  rw [hnodup.idxOf_getElem]

variable (hdoc : ofNode? tree types tree.root = some doc.root)

include hdoc

/-- A node `id` of the tree and its document `d`, at the place `i` where the document order has
them. -/
theorem exists_at (hid : tree.contains id = true) : ∃ i d,
    (tree.descendants tree.root)[i]? = some id ∧ htree.inOrder id = ⟨i⟩ ∧
      doc.root.preorder[i]? = some d ∧ ofNode? tree types id = some d := by
  obtain ⟨i, hi⟩ := List.mem_iff_getElem?.mp (htree.mem_descendants_root hid)
  obtain ⟨d, hd, hof⟩ := exists_getElem?_preorder htree htree.contains_root hdoc hi
  exact ⟨i, d, hi, htree.inOrder_eq hi, hd, hof⟩

variable (h : doc.build tree.source = .ok (tree', types'))

include h

theorem children_inOrder (hid : tree.contains id = true) :
    tree'.children (htree.inOrder id) = (tree.children id).map htree.inOrder := by
  obtain ⟨i, d, hi, hplace, hd, hof⟩ := exists_at htree hdoc hid
  rw [hplace, children_of_build h ⟨i⟩ hd]
  exact places_children htree hi hid hof

theorem parent?_inOrder (hid : tree.contains id = true) :
    tree'.parent? (htree.inOrder id) = (tree.parent? id).map htree.inOrder := by
  have htree' := (finished_of_build h).sound
  rcases (htree.reached id hid).cases_tail with hroot | ⟨parent, -, hchild⟩
  · have hfirst : (tree.descendants tree.root)[0]? = some tree.root := by
      rw [htree.descendants_eq htree.contains_root]
      rfl
    have hroot' : tree'.root = ⟨0⟩ := by
      obtain ⟨-, rfl, -⟩ := build_eq_ok_iff.mp h
      rfl
    rw [hroot, htree.parent?_root, htree.inOrder_eq hfirst, ← hroot', htree'.parent?_root]
    rfl
  · have hparent := htree.parent?_eq_some_iff.mpr hchild
    rw [hparent, Option.map_some, htree'.parent?_eq_some_iff,
      children_inOrder htree hdoc h (htree.contains_parent hparent)]
    exact List.mem_map_of_mem hchild

/-- **The tree of a document.** The document of `tree` makes the tree again, as `tree'`, its nodes
counted in document order. -/
theorem renumbered_of_build (hpath : doc.path = tree.path) :
    tree.Renumbered htree.inOrder tree' := by
  have hbuilt := (build_eq_ok_iff.mp h).2.1
  have hlength : (tree.descendants tree.root).length = tree.size := by
    simpa [Tree.ids] using htree.perm_descendants_root.length_eq
  refine ⟨?_, ?_, ?_, fun id => ?_⟩
  · rw [hbuilt, hpath]
  · rw [hbuilt]
  · rw [hbuilt, htree.inOrder_eq (i := 0)]
    rw [htree.descendants_eq htree.contains_root]
    rfl
  · by_cases hid : tree.contains id = true
    · obtain ⟨i, d, hi, hplace, hd, hof⟩ := exists_at htree hdoc hid
      obtain ⟨node, hnode, rfl⟩ := exists_node htree hid hof
      obtain ⟨above, hnode'⟩ := node?_of_build h ⟨i⟩ hd
      have hparent := parent?_inOrder htree hdoc h hid
      have hchildren := children_inOrder htree hdoc h hid
      rw [hplace] at hparent hchildren ⊢
      rw [Tree.parent?, Tree.parent?, hnode', hnode] at hparent
      rw [Tree.children_of_node? hnode', Tree.children_of_node? hnode] at hchildren
      rw [hnode', hnode, Option.map_some, Option.some.injEq, Node.renumber, Node.mk.injEq]
      exact ⟨rfl, rfl, rfl, hparent, hchildren, rfl⟩
    · have hstays : htree.inOrder id = id := if_neg hid
      have hsize : tree'.size = tree.size := by
        rw [size_of_build h, ← hlength]
        exact (forall₂_preorder htree htree.contains_root hdoc).length_eq.symm
      have hnot : ¬ tree'.contains id = true := by
        simpa [Tree.contains, ← Tree.size.eq_def, hsize] using hid
      rw [Tree.contains_eq_isSome, Bool.not_eq_true, Option.isSome_eq_false_iff,
        Option.isNone_iff_eq_none] at hid hnot
      rw [hstays, hnot, hid]
      rfl

end UnitDocument

end TreeLint
