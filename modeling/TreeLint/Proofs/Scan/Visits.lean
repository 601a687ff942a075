import TreeLint.Proofs.Rule.Matchers
import TreeLint.Proofs.Scan.Walk
import TreeLint.Scan

/-!
# What a scan asks, and what it sees then

A scan of a finished tree asks its rules about the descendants of the root one after the other. At
each node the trail is the way up from it, so what is read off the trail is what the links of the
tree say.

- `Visit.on`: the visit that a scan makes at a node.
- `questions`: every node with every rule, in order.
- `parent?_on`, `Matcher.holds_congr`: the trail gives no answer that the tree does not give.
- `askAll_spec`: the questions of a scan, and what can be seen at each.
-/

namespace TreeLint

/-- What can be seen when a scan has come to `node`. -/
def Visit.on (tree : Tree) (types : TypeTable) (node : NodeId) : Visit :=
  { tree, types, trail := tree.ancestors node }

/-- Every node with every rule: nodes as the root has them below it, the rules in the order of
`registry` at each. -/
def questions (tree : Tree) (registry : Registry) : List (NodeId × Rule) :=
  (tree.descendants tree.root).flatMap fun node => registry.rules.map fun rule => (node, rule)

variable {tree : Tree} (types : TypeTable)

/-! ## Parents -/

/-- The trail at `node` gives for `x` the parent that the links of the tree give. -/
theorem Visit.parent?_on (htree : tree.Sound) {node : NodeId} (hnode : tree.contains node = true)
    (x : NodeId) : (Visit.on tree types node).parent? x = tree.parent? x := by
  unfold Visit.parent? Visit.on
  rw [htree.ancestors_eq hnode]
  by_cases hx : node = x
  · subst hx
    simp only [if_true]
    cases hparent : tree.parent? node with
    | none => rfl
    | some parent =>
      simp [htree.ancestors_eq (htree.contains_parent hparent)]
  · simp [hx]

/-! ## Matchers -/

namespace Matcher

/-- A matcher `m` sees of a visit only the tree, the types and the parents. -/
theorem holds_congr {v w : Visit} (htree : v.tree = w.tree) (htypes : v.types = w.types)
    (hparent : ∀ x, v.parent? x = w.parent? x) (m : Matcher) (x : NodeId) :
    holds v m x = holds w m x :=
  holds_of_answers (Visit.answers_id (by simp [htree]) hparent (by simp [htree]) htypes) m x trivial

end Matcher

/-! ## Questions -/

/-- A scan visits the descendants of the root in order, each `node` with its ancestors for the
trail. -/
theorem visitAll_eq_foldl (htree : tree.Sound) {σ : Type} (visit : σ → Visit → NodeId → σ)
    (init : σ) : visitAll tree types visit init = (tree.descendants tree.root).foldl
      (fun gathered node => visit gathered (.on tree types node) node) init := by
  rw [visitAll, Tree.walk_eq_foldl htree]
  refine List.foldl_ext _ _ _ fun gathered node hnode => ?_
  have hcontains := htree.contains_of_mem_descendants htree.contains_root node hnode
  rw [Visit.on, htree.ancestors_eq hcontains, List.tail_cons]

/-- A scan asks its `questions` in order. -/
theorem askAll_eq_foldl (htree : tree.Sound) (registry : Registry) {σ : Type}
    (ask : σ → Visit → NodeId → Rule → σ) (init : σ) :
    askAll tree types registry ask init = (questions tree registry).foldl
      (fun gathered (node, rule) => ask gathered (.on tree types node) node rule) init := by
  rw [askAll, visitAll_eq_foldl types htree, questions, List.foldl_flatMap]
  simp only [List.foldl_map]

/-- The report of a scan records what comes of each of the `questions`. -/
theorem scan_eq_foldl (htree : tree.Sound) (registry : Registry) :
    scan tree types registry = (questions tree registry).foldl
      (fun report (node, rule) => report.record (evaluate (.on tree types node) node rule)) {} :=
  askAll_eq_foldl types htree registry
    (fun (report : ScanReport) visit node rule => report.record (evaluate visit node rule)) {}

/-- **What a scan asks.** Whatever comes of the questions of a scan (`ask`), they are asked at the
descendants of the root in order, every node of `tree` once and all rules of `registry` in order at
each. The visit shows the way from the root to `node`, and no parent that is not the parent by the
links of the tree, so that a matcher `m` holds for a node as it does before the scan. -/
theorem askAll_spec (tree : Tree) (types : TypeTable) (registry : Registry)
    (hfinished : tree.Finished) :
    (∀ (σ : Type) (ask : σ → Visit → NodeId → Rule → σ) (init : σ),
      askAll tree types registry ask init = (questions tree registry).foldl
        (fun gathered (node, rule) => ask gathered (.on tree types node) node rule) init) ∧
    scan tree types registry = (questions tree registry).foldl
      (fun report (node, rule) => report.record (evaluate (.on tree types node) node rule)) {} ∧
    (tree.descendants tree.root).Nodup ∧
    (∀ id, id ∈ tree.descendants tree.root ↔ tree.contains id = true) ∧
    (∀ id, tree.contains id = true →
      tree.descendants id = id :: (tree.children id).flatMap tree.descendants) ∧
    ∀ node, tree.contains node = true →
      tree.Climbs node (tree.ancestors node) ∧
      (Visit.on tree types node).path = (tree.ancestors node).reverse ∧
      (Visit.on tree types node).path.head? = some tree.root ∧
      (Visit.on tree types node).path.getLast? = some node ∧
      (∀ x, (Visit.on tree types node).parent? x = tree.parent? x) ∧
      ∀ (m : Matcher) (x : NodeId), m.holds (.on tree types node) x = m.holds { tree, types } x := by
  have htree := hfinished.sound
  refine ⟨fun σ ask init => askAll_eq_foldl types htree registry ask init,
    scan_eq_foldl types htree registry, htree.nodup_descendants htree.contains_root,
    fun id => ⟨htree.contains_of_mem_descendants htree.contains_root id,
      htree.mem_descendants_root⟩,
    fun id hid => htree.descendants_eq hid, fun node hnode => ?_⟩
  have hparent := Visit.parent?_on types htree hnode
  refine ⟨htree.climbs_ancestors hnode, rfl, ?_, ?_, hparent, ?_⟩
  · rw [Visit.path, List.head?_reverse]
    exact htree.getLast?_ancestors hnode
  · rw [Visit.path, List.getLast?_reverse, Visit.on, htree.ancestors_eq hnode]
    rfl
  · exact Matcher.holds_congr rfl rfl hparent

/-- Two rules, `a` and `b`, are asked about the three nodes of `blockTree`. -/
theorem askAll_spec_blockTree :
    let registry : Registry := ⟨[{ name := "a", code := "A1", check := fun _ _ => .noMatch },
      { name := "b", code := "B1", check := fun _ _ => .breakdown "out of luck" }]⟩
    blockTree.Finished ∧
      askAll blockTree {} registry (fun asked visit node rule =>
        asked ++ [(visit.path, node, rule.name)]) [] =
        [([⟨0⟩], ⟨0⟩, "a"), ([⟨0⟩], ⟨0⟩, "b"), ([⟨0⟩, ⟨1⟩], ⟨1⟩, "a"), ([⟨0⟩, ⟨1⟩], ⟨1⟩, "b"),
          ([⟨0⟩, ⟨2⟩], ⟨2⟩, "a"), ([⟨0⟩, ⟨2⟩], ⟨2⟩, "b")] := by
  intro registry
  refine ⟨finished_blockTree, ?_⟩
  rw [(askAll_spec blockTree {} registry finished_blockTree).1]
  rfl

end TreeLint
