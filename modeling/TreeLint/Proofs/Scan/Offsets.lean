import TreeLint.Proofs.Scan.Isolation
import TreeLint.Proofs.Tree.Nesting

/-!
# Diagnostics in order of their places

A scan meets the nodes of a tree in document order, and in that order they do not begin earlier and
earlier. So the diagnostics of rules that find fault with the node they are asked about come sorted.

- `Rule.AnchorsHere`: a rule that reports no node but the one it is asked about.
- `pairwise_offset`: the diagnostics of such rules begin in order, whatever the other rules do.
- `Tree.laminar_of_finished`: how the nodes of a finished tree lie, and what follows for a scan.
-/

namespace TreeLint

variable {tree : Tree}

/-- The `rule` reports no node but the one it is asked about. -/
def Rule.AnchorsHere (rule : Rule) : Prop :=
  ∀ visit node d, rule.check visit node = .finding d → d.anchor = node

/-- A scan asks about nodes in the order in which they begin: `p` before `q`. -/
theorem pairwise_start_questions (htree : tree.Sound) (hnested : tree.Nested)
    (registry : Registry) : (questions tree registry).Pairwise fun p q =>
      (tree.range p.1).start ≤ (tree.range q.1).start := by
  rw [questions, List.pairwise_flatMap]
  constructor
  · intro node _
    rw [List.pairwise_map]
    exact List.pairwise_iff_forall_sublist.mpr fun _ => Nat.le_refl _
  · refine (hnested.pairwise_start_descendants htree htree.contains_root).imp ?_
    intro a b hle p hp q hq
    obtain ⟨_, -, rfl⟩ := List.mem_map.mp hp
    obtain ⟨_, -, rfl⟩ := List.mem_map.mp hq
    exact hle

/-- The diagnostics of rules, called by `names`, that report the node they are asked about begin in
order. -/
theorem pairwise_offset (htree : tree.Sound) (hnested : tree.Nested) (types : TypeTable)
    {registry : Registry} {names : List String}
    (hrules : ∀ rule ∈ registry.rules, rule.name ∈ names → rule.AnchorsHere) :
    ((scan tree types registry).diagnostics.filter fun d => d.rule ∈ names).Pairwise fun d d' =>
      d.location.offset ≤ d'.location.offset := by
  have hoffset : ∀ q ∈ questions tree registry, ∀ diagnostic,
      (answer tree types q).diagnostic? = some diagnostic → diagnostic.rule ∈ names →
        diagnostic.location.offset = (tree.range q.1).start := by
    intro q hq diagnostic hanswer hname
    obtain ⟨d, hcheck, -, -, rfl⟩ :=
      found_iff.mp (Evaluation.diagnostic?_eq_some_iff.mp hanswer)
    have hrule := ((mem_questions htree).mp hq).2
    exact congrArg (fun anchor => (tree.range anchor).start)
      (hrules q.2 hrule hname _ _ _ hcheck)
  rw [scan_eq_filterMap types htree, List.pairwise_filter, List.pairwise_filterMap]
  refine (pairwise_start_questions htree hnested registry).imp_of_mem ?_
  intro p q hp hq hle d hd d' hd' hname hname'
  rw [hoffset p hp d hd (by simpa using hname), hoffset q hq d' hd' (by simpa using hname')]
  exact hle

/-- **Nodes lie in order.** In a finished `tree` a node `a` contains every node `b` below it, and of
two nodes that are not above each other the first in document order ends before the other begins. So
what is below `a` stands together in document order, each node once and by its beginning, and it is
what has `a` above it; and the diagnostics of rules that report the node they are asked about
(`AnchorsHere`) begin in order. -/
theorem Tree.laminar_of_finished (tree : Tree) (hfinished : tree.Finished) :
    (∀ a b, tree.contains b = true → a ∈ tree.ancestors b →
      (tree.range a).contains (tree.range b) = true) ∧
    (∀ a b, tree.contains a = true → tree.contains b = true →
      a ∉ tree.ancestors b → b ∉ tree.ancestors a →
      (tree.descendants tree.root).idxOf a < (tree.descendants tree.root).idxOf b →
        (tree.range a).stop ≤ (tree.range b).start) ∧
    (∀ a, tree.contains a = true →
      tree.descendants a <:+: tree.descendants tree.root ∧
      (tree.descendants a).Pairwise (fun x y => (tree.range x).start ≤ (tree.range y).start) ∧
      (tree.descendants a).Nodup ∧
      ∀ x, tree.contains x = true → (x ∈ tree.descendants a ↔ a ∈ tree.ancestors x)) ∧
    ∀ (types : TypeTable) (registry : Registry) (names : List String),
      (∀ rule ∈ registry.rules, rule.name ∈ names → rule.AnchorsHere) →
        ((scan tree types registry).diagnostics.filter fun d => d.rule ∈ names).Pairwise
          fun d d' => d.location.offset ≤ d'.location.offset := by
  have htree := hfinished.sound
  have hnested := hfinished.nested
  refine ⟨fun a b hb hab => ?_, fun a b ha hb hab _ hlt => ?_, fun a ha => ?_, ?_⟩
  · simpa [Span.contains] using hnested.contains_of_mem_ancestors htree hb hab
  · have hpairs := hnested.pairwise_descendants htree htree.contains_root
    have hmem := List.idxOf_lt_length_of_mem (htree.mem_descendants_root hb)
    have hpair := List.pairwise_iff_getElem.mp hpairs _ _ (Nat.lt_trans hlt hmem) hmem hlt
    rw [List.getElem_idxOf, List.getElem_idxOf] at hpair
    exact hpair.resolve_left hab
  · exact ⟨htree.descendants_infix_root ha, hnested.pairwise_start_descendants htree ha,
      htree.nodup_descendants ha, fun x hx => htree.mem_descendants_iff ha hx⟩
  · exact fun types registry names hrules => pairwise_offset htree hnested types hrules

/-- The two statements of `blockTree` are reported by `flag`, beside a rule that reports the root
wherever it is asked. -/
theorem Tree.laminar_of_finished_blockTree :
    let flag : Rule :=
      { name := "flag", code := "F1", check := fun _ node =>
        .finding { anchor := node, message := "" } }
    let stray : Rule :=
      { name := "stray", code := "S1", check := fun visit _ =>
        .finding { anchor := visit.tree.root, message := "" } }
    blockTree.Finished ∧ flag.AnchorsHere ∧
      (blockTree.range ⟨1⟩).stop ≤ (blockTree.range ⟨2⟩).start ∧
      blockTree.descendants ⟨1⟩ <:+: blockTree.descendants ⟨0⟩ ∧
      ((scan blockTree {} (.ofList [stray, flag])).diagnostics.filter fun d =>
        d.rule ∈ ["flag"]).Pairwise fun d d' => d.location.offset ≤ d'.location.offset := by
  intro flag stray
  have hflag : flag.AnchorsHere := fun visit node d h => by
    cases h
    rfl
  obtain ⟨-, hbehind, hbelow, hscan⟩ := laminar_of_finished blockTree finished_blockTree
  refine ⟨finished_blockTree, hflag, hbehind ⟨1⟩ ⟨2⟩ rfl rfl (by decide) (by decide) (by decide),
    (hbelow ⟨1⟩ rfl).1, hscan {} _ ["flag"] ?_⟩
  rintro rule hrule hname
  have hrules : (Registry.ofList [stray, flag]).rules = [stray, flag] := rfl
  rw [hrules] at hrule
  rcases List.mem_cons.mp hrule with rfl | hrule
  · exact absurd hname (by decide)
  · obtain rfl := List.mem_singleton.mp hrule
    exact hflag

end TreeLint
