import TreeLint.Proofs.Tree.Finish

/-!
# Finished trees

The links of a tree that `Builder.finish` accepts agree with each other, and the way up from any
node is a path to the root.

* `Tree.Sound`: what the links of a finished tree have in common.
* `Tree.Climbs`: a way up to a node without a parent, one link at a time. `climbs_ancestors` says
  that `Tree.ancestors` is such a way, so its bound cuts nothing off.
* `Builder.finish_spec`: when calls lead to a tree, and what the links of that tree are like.
-/

namespace TreeLint

namespace Tree

variable {tree : Tree} {id : NodeId}

/-- The `tree` was accepted after `calls` that name only nodes added before (`admits`). -/
def Finished (tree : Tree) : Prop :=
  ∃ (path source : String) (calls : List BuilderCall) (root : NodeId),
    (Builder.start path source).admits calls = true ∧
      ((Builder.start path source).performAll calls).finish root = .ok tree

/-- The links of `tree` agree with each other and hold it together. -/
structure Sound (tree : Tree) : Prop where
  contains_root : tree.contains tree.root = true
  contains_child : ∀ {parent child}, child ∈ tree.children parent → tree.contains child = true
  parent?_eq_some_iff : ∀ {parent child},
    tree.parent? child = some parent ↔ child ∈ tree.children parent
  parent?_root : tree.parent? tree.root = none
  nodup_children : ∀ parent, (tree.children parent).Nodup
  reached : ∀ id, tree.contains id = true →
    Relation.ReflTransGen (fun parent child => child ∈ tree.children parent) tree.root id

/-- `way` leads from `id` upward, parent by parent, to a node without a parent. -/
inductive Climbs (tree : Tree) : (id : NodeId) → (way : List NodeId) → Prop
  | top {id : NodeId} (hid : tree.parent? id = none) : tree.Climbs id [id]
  | up {id parent : NodeId} {way : List NodeId} (hid : tree.parent? id = some parent)
      (hparent : tree.Climbs parent way) : tree.Climbs id (id :: way)

theorem mem_ids : id ∈ tree.ids ↔ tree.contains id = true := by
  cases id
  simp [ids, contains, size]

theorem children_of_node? {node : Node} (h : tree.node? id = some node) :
    tree.children id = node.children := by
  rw [children, h]
  rfl

/-- The `parent` of a node is a node, for it has a child. -/
theorem Sound.contains_parent (htree : tree.Sound) {parent child : NodeId}
    (h : tree.parent? child = some parent) : tree.contains parent = true := by
  have hchild : child ∈ tree.children parent := htree.parent?_eq_some_iff.mp h
  by_contra hnot
  have hnone : tree.nodes[parent.index]? = none := by simpa [contains] using hnot
  simp [children, node?, hnone] at hchild

/-! ## The way up -/

namespace Climbs

variable {way : List NodeId}

theorem unique {way' : List NodeId} (h : tree.Climbs id way) (h' : tree.Climbs id way') :
    way = way' := by
  induction h generalizing way' with
  | top hid =>
    cases h' with
    | top => rfl
    | up hid' => simp [hid] at hid'
  | up hid _ ih =>
    cases h' with
    | top hid' => simp [hid] at hid'
    | up hid' hparent' =>
      obtain rfl := Option.some.inj (hid.symm.trans hid')
      rw [ih hparent']

/-- What is left of a `way` up from one of its nodes, `x`, is the way up from that node. -/
theorem exists_suffix (h : tree.Climbs id way) {x : NodeId} (hx : x ∈ way) :
    ∃ rest, rest <:+ way ∧ tree.Climbs x rest := by
  induction h with
  | top hid =>
    rw [List.mem_singleton.mp hx]
    exact ⟨_, List.suffix_rfl, .top hid⟩
  | up hid hparent ih =>
    rcases List.mem_cons.mp hx with rfl | hx
    · exact ⟨_, List.suffix_rfl, .up hid hparent⟩
    · obtain ⟨rest, hrest, hclimb⟩ := ih hx
      exact ⟨rest, hrest.trans (List.suffix_cons _ _), hclimb⟩

/-- No node is met twice on the `way` up, for it would be left by two ways of different lengths. -/
theorem nodup (h : tree.Climbs id way) : way.Nodup := by
  induction h with
  | top => exact List.nodup_singleton _
  | @up id parent way hid hparent ih =>
    refine List.nodup_cons.mpr ⟨fun hmem => ?_, ih⟩
    obtain ⟨rest, hrest, hclimb⟩ := hparent.exists_suffix hmem
    have hlength := hrest.length_le
    rw [hclimb.unique (.up hid hparent), List.length_cons] at hlength
    omega

theorem mem_self (h : tree.Climbs id way) : id ∈ way := by
  cases h <;> exact List.mem_cons_self

/-- The `way` up stays among the nodes of a sound tree. -/
theorem contains (htree : tree.Sound) (h : tree.Climbs id way) (hid : tree.contains id = true) :
    ∀ x ∈ way, tree.contains x = true := by
  induction h with
  | top => simpa using hid
  | up hup _ ih => exact List.forall_mem_cons.mpr ⟨hid, ih (htree.contains_parent hup)⟩

/-- A `way` up is no longer than the tree has nodes. -/
theorem length_le (htree : tree.Sound) (h : tree.Climbs id way) (hid : tree.contains id = true) :
    way.length ≤ tree.size := by
  have hsub : way ⊆ tree.ids := fun x hx => mem_ids.mpr (h.contains htree hid x hx)
  simpa [ids] using (List.subperm_of_subset h.nodup hsub).length_le

/-- The bounded walk finds the `way` up when `bound` is not below its length. -/
theorem ancestorsWithin_eq (h : tree.Climbs id way) {bound : Nat} (hbound : way.length ≤ bound) :
    tree.ancestorsWithin bound id = way := by
  induction h generalizing bound with
  | top hid =>
    cases bound with
    | zero => simp at hbound
    | succ bound => simp [ancestorsWithin, hid]
  | up hid hparent ih =>
    cases bound with
    | zero => simp at hbound
    | succ bound =>
      rw [List.length_cons, Nat.succ_le_succ_iff] at hbound
      simp [ancestorsWithin, hid, ih hbound]

/-- A `way` up ends at a node `top` without a parent. -/
theorem exists_getLast? (h : tree.Climbs id way) :
    ∃ top, way.getLast? = some top ∧ tree.parent? top = none := by
  induction h with
  | top hid => exact ⟨_, rfl, hid⟩
  | up _ hparent ih =>
    obtain ⟨top, hlast, htop⟩ := ih
    exact ⟨top, by rw [List.getLast?_cons, hlast]; rfl, htop⟩

end Climbs

namespace Sound

variable (htree : tree.Sound)

include htree

/-- The root is the only node `id` without a parent. -/
theorem parent?_eq_none_iff (hid : tree.contains id = true) :
    tree.parent? id = none ↔ id = tree.root := by
  constructor
  · intro hnone
    rcases (htree.reached id hid).cases_tail with hroot | ⟨parent, -, hchild⟩
    · exact hroot
    · simp [htree.parent?_eq_some_iff.mpr hchild] at hnone
  · rintro rfl
    exact htree.parent?_root

/-- There is a `way` up from every node `id`: the links that lead to it, backwards. -/
theorem exists_climbs (hid : tree.contains id = true) : ∃ way, tree.Climbs id way := by
  induction htree.reached id hid with
  | refl => exact ⟨[tree.root], .top htree.parent?_root⟩
  | @tail parent child _ hchild ih =>
    have hparent := htree.parent?_eq_some_iff.mpr hchild
    obtain ⟨way, hway⟩ := ih (htree.contains_parent hparent)
    exact ⟨child :: way, .up hparent hway⟩

/-- The bound of `Tree.ancestors` is high enough. -/
theorem climbs_ancestors (hid : tree.contains id = true) :
    tree.Climbs id (tree.ancestors id) := by
  obtain ⟨way, hway⟩ := htree.exists_climbs hid
  rwa [ancestors, hway.ancestorsWithin_eq (hway.length_le htree hid)]

theorem getLast?_ancestors (hid : tree.contains id = true) :
    (tree.ancestors id).getLast? = some tree.root := by
  have hclimbs := htree.climbs_ancestors hid
  obtain ⟨top, hlast, htop⟩ := hclimbs.exists_getLast?
  have hcontains := hclimbs.contains htree hid top (List.mem_of_getLast? hlast)
  rw [hlast, (htree.parent?_eq_none_iff hcontains).mp htop]

end Sound

end Tree

/-! ## Accepted trees -/

namespace Builder

variable {b : Builder} {root : NodeId} {tree : Tree}

theorem contains_of_child {parent child : NodeId} (h : child ∈ b.children parent) :
    b.contains parent = true := by
  by_contra hnot
  rw [children_of_not_contains (by simpa using hnot)] at h
  cases h

/-- The list of children of `parent` is a part of the list of all children. -/
theorem count_children_le (parent child : NodeId) :
    (b.children parent).count child ≤ b.allChildren.count child := by
  by_cases hparent : b.contains parent = true
  · have hperm := (List.perm_cons_erase (mem_ids.mpr hparent)).flatMap_right b.children
    rw [allChildren, hperm.count_eq, List.flatMap_cons, List.count_append]
    omega
  · simp [children_of_not_contains (by simpa using hparent)]

/-- A `child` that occurs only once in all lists of children (`honce`) occurs in the list of one
node only. -/
theorem parent_unique {child p q : NodeId} (honce : b.allChildren.count child = 1)
    (hp : child ∈ b.children p) (hq : child ∈ b.children q) : p = q := by
  by_contra hne
  have hp' : p ∈ b.ids := mem_ids.mpr (contains_of_child hp)
  have hq' : q ∈ b.ids.erase p :=
    (List.mem_erase_of_ne (Ne.symm hne)).mpr (mem_ids.mpr (contains_of_child hq))
  have hperm : b.ids.Perm (p :: q :: (b.ids.erase p).erase q) :=
    (List.perm_cons_erase hp').trans ((List.perm_cons_erase hq').cons p)
  have hcount := (hperm.flatMap_right b.children).count_eq child
  have hp1 := List.count_pos_iff.mpr hp
  have hq1 := List.count_pos_iff.mpr hq
  rw [← allChildren, honce, List.flatMap_cons, List.flatMap_cons, List.count_append,
    List.count_append] at hcount
  omega

/-- The links of an accepted tree agree: the last link made upward from a node is the only one
(`htree`). -/
theorem sound_of_isTree (hb : b.Linked) (hroot : b.contains root = true)
    (htop : b.parent? root = none) (htree : b.IsTree root) :
    (⟨b.path, b.source, b.nodes, root⟩ : Tree).Sound := by
  have honce : ∀ {parent child}, child ∈ b.children parent → b.allChildren.count child = 1 := by
    intro parent child hchild
    refine htree.once child (hb.contains_child hchild) ?_
    rintro rfl
    simpa [htop] using hb.isSome_parent? hchild
  refine ⟨hroot, hb.contains_child, ?_, htop, fun parent => ?_, htree.reached⟩
  · intro parent child
    constructor
    · exact hb.mem_children
    · intro hchild
      obtain ⟨above, habove⟩ := Option.isSome_iff_exists.mp (hb.isSome_parent? hchild)
      rwa [parent_unique (honce hchild) hchild (hb.mem_children habove)]
  · refine List.nodup_iff_count_le_one.mpr fun child => ?_
    by_cases hchild : child ∈ b.children parent
    · exact (count_children_le parent child).trans_eq (honce hchild)
    · exact (List.count_eq_zero_of_not_mem hchild).trans_le (Nat.zero_le 1)

end Builder

theorem Tree.Finished.sound {tree : Tree} (h : tree.Finished) : tree.Sound := by
  obtain ⟨path, source, calls, root, hcalls, hfinish⟩ := h
  have hb := Builder.linked_performAll (Builder.linked_start path source) hcalls
  have hroot := (Builder.finish_eq_ok_iff_checks.mp hfinish).1
  obtain ⟨htop, htree, rfl⟩ := (Builder.finish_eq_ok_iff hb hroot).mp hfinish
  exact Builder.sound_of_isTree hb hroot htop htree

/-- A sequence of calls that name only nodes added before leads to a tree below `root` exactly when
no call attached `root`, every range fits the source, children lie in their parent one behind the
other, and the links lead from `root` to every node once. Children and ranges are as the calls gave
them. No check leaves the nodes. In the tree the links up are the links down reversed, only the
root has none, and the way up from every node ends at the root. -/
theorem Builder.finish_spec (path source : String) (calls : List BuilderCall) (root : NodeId)
    (hcalls : (start path source).admits calls = true)
    (hroot : ((start path source).performAll calls).contains root = true) :
    let b := (start path source).performAll calls
    b.source = source ∧
    (∀ id, b.children id = BuilderCall.attachedTo id calls ∧
      b.range? id = (calls.foldl BuilderCall.rerange [])[id.index]?) ∧
    ((∃ tree, b.finish root = .ok tree) ↔
      (∀ parent, BuilderCall.attach parent root ∉ calls) ∧ b.IsTree root) ∧
    (∀ target, b.finish root ≠ .error (.danglingLink target)) ∧
    ∀ tree, b.finish root = .ok tree →
      tree = ⟨path, source, b.nodes, root⟩ ∧
      (∀ parent child, tree.parent? child = some parent ↔ child ∈ tree.children parent) ∧
      (∀ id, tree.contains id = true → (tree.parent? id = none ↔ id = root)) ∧
      ∀ id, tree.contains id = true →
        tree.Climbs id (tree.ancestors id) ∧ (tree.ancestors id).getLast? = some root := by
  intro b
  have hb : b.Linked := linked_performAll (linked_start path source) hcalls
  obtain ⟨hsource, hpath⟩ := source_performAll (start path source) calls
  refine ⟨hsource, fun id => ⟨?_, range?_performAll path source calls id⟩, ?_,
    finish_ne_danglingLink hb hroot, ?_⟩
  · rw [children_performAll hcalls]
    simp [start, children]
  · rw [← parent?_eq_none_iff hcalls root]
    constructor
    · rintro ⟨tree, hfinish⟩
      obtain ⟨htop, htree, -⟩ := (finish_eq_ok_iff hb hroot).mp hfinish
      exact ⟨htop, htree⟩
    · rintro ⟨htop, htree⟩
      exact ⟨_, (finish_eq_ok_iff hb hroot).mpr ⟨htop, htree, rfl⟩⟩
  · intro tree hfinish
    have hsound : tree.Sound := Tree.Finished.sound ⟨path, source, calls, root, hcalls, hfinish⟩
    obtain ⟨-, -, rfl⟩ := (finish_eq_ok_iff hb hroot).mp hfinish
    refine ⟨?_, fun parent child => hsound.parent?_eq_some_iff,
      fun id hid => hsound.parent?_eq_none_iff hid,
      fun id hid => ⟨hsound.climbs_ancestors hid, hsound.getLast?_ancestors hid⟩⟩
    rw [hsource, hpath]
    rfl

/-- Calls that build a block of two statements; the range of the block `⟨0⟩` is known only at the
end. -/
def blockCalls : List BuilderCall :=
  [.push .block (.point 0) none, .push .expressionStatement ⟨0, 2⟩ none, .attach ⟨0⟩ ⟨1⟩,
    .push .expressionStatement ⟨3, 5⟩ none, .attach ⟨0⟩ ⟨2⟩, .setRange ⟨0⟩ ⟨0, 5⟩]

/-- The tree that `blockCalls` builds. -/
def blockTree : Tree where
  path := "A.java"
  source := "a; b;"
  nodes := #[
    { kind := .block, range := ⟨0, 5⟩, children := [⟨1⟩, ⟨2⟩] },
    { kind := .expressionStatement, range := ⟨0, 2⟩, parent := some ⟨0⟩ },
    { kind := .expressionStatement, range := ⟨3, 5⟩, parent := some ⟨0⟩ }]
  root := ⟨0⟩

theorem finish_blockCalls :
    ((Builder.start "A.java" "a; b;").performAll blockCalls).finish ⟨0⟩ = .ok blockTree := by
  refine Builder.finish_eq_ok_iff_checks.mpr
    ⟨by decide, rfl, rfl, Builder.checkReach_eq_ok_iff.mpr ⟨by decide, ?_⟩, rfl⟩
  rintro ⟨index⟩ hindex
  have hlt : index < 3 := of_decide_eq_true hindex
  match index, hlt with
  | 0, _ => exact .refl
  | 1, _ => exact .single (.head _)
  | 2, _ => exact .single (.tail _ (.head _))

theorem finished_blockTree : blockTree.Finished :=
  ⟨"A.java", "a; b;", blockCalls, ⟨0⟩, by decide, finish_blockCalls⟩

theorem Builder.finish_spec_blockCalls :
    (start "A.java" "a; b;").admits blockCalls = true ∧
      ((start "A.java" "a; b;").performAll blockCalls).contains ⟨0⟩ = true ∧
      ∃ tree, ((start "A.java" "a; b;").performAll blockCalls).finish ⟨0⟩ = .ok tree ∧
        ∀ id, tree.contains id = true → (tree.ancestors id).getLast? = some ⟨0⟩ := by
  obtain ⟨-, -, -, -, htree⟩ :=
    finish_spec "A.java" "a; b;" blockCalls ⟨0⟩ (by decide) (by decide)
  obtain ⟨-, -, -, hancestors⟩ := htree blockTree finish_blockCalls
  exact ⟨by decide, by decide, blockTree, finish_blockCalls, fun id hid => (hancestors id hid).2⟩

end TreeLint
