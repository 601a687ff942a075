import TreeLint.Proofs.Tree.Below
import TreeLint.Visit

/-!
# Walks through finished trees

`Tree.walk` is a loop over turns: it enters a node, puts off the rest, and goes back up later. Here
it is a fold over the descendants of the root, each looked at together with its ancestors.

- `Walk.Ready`: the turns left to do fit the trail.
- `Walk.outcome`: what a walk will have gathered, told from the turns left to do.
- `Ready.turn`, `outcome_turn`, `countdown_turn`: one turn keeps both and leaves one turn less.
- `Tree.walk_eq_foldl`: the run.
-/

namespace TreeLint

namespace Walk

variable {σ : Type} {tree : Tree} {look : σ → NodeId → List NodeId → σ} {walk : Walk σ}

/-- The turns `pending` fit the `trail`: a node is entered from its parent, and what was entered
last is left first. -/
inductive Ready (tree : Tree) : (trail : List NodeId) → (pending : List Turn) → Prop
  | done : Ready tree [] []
  | enter {node : NodeId} {trail : List NodeId} {rest : List Turn}
      (hnode : tree.contains node = true) (hway : tree.ancestors node = node :: trail)
      (hrest : Ready tree trail rest) : Ready tree trail (.enter node :: rest)
  | leave {node : NodeId} {trail : List NodeId} {rest : List Turn}
      (hrest : Ready tree trail rest) : Ready tree (node :: trail) (.leave :: rest)

/-- The nodes still to be entered, in order, when the turns in the list are left to do. -/
def ahead (tree : Tree) : List Turn → List NodeId
  | [] => []
  | .enter node :: rest => tree.descendants node ++ ahead tree rest
  | .leave :: rest => ahead tree rest

/-- The number of turns until a walk is over: two for each node to be entered, one for each
`leave`. -/
def countdown (tree : Tree) : List Turn → Nat
  | [] => 0
  | .enter node :: rest => 2 * (tree.descendants node).length + countdown tree rest
  | .leave :: rest => 1 + countdown tree rest

/-- What `walk` will have gathered when every node `ahead` has been looked at with its ancestors. -/
def outcome (tree : Tree) (look : σ → NodeId → List NodeId → σ) (walk : Walk σ) : σ :=
  (ahead tree walk.pending).foldl
    (fun gathered node => look gathered node (tree.ancestors node).tail) walk.gathered

/-! ## Entering a list of nodes -/

theorem ahead_append (nodes : List NodeId) (rest : List Turn) :
    ahead tree (nodes.map .enter ++ rest) =
      nodes.flatMap tree.descendants ++ ahead tree rest := by
  induction nodes with
  | nil => rfl
  | cons node nodes ih =>
    rw [List.map_cons, List.cons_append, ahead, ih, List.flatMap_cons, List.append_assoc]

theorem countdown_append (nodes : List NodeId) (rest : List Turn) :
    countdown tree (nodes.map .enter ++ rest) =
      2 * (nodes.flatMap tree.descendants).length + countdown tree rest := by
  induction nodes with
  | nil => simp
  | cons node nodes ih =>
    rw [List.map_cons, List.cons_append, countdown, ih, List.flatMap_cons, List.length_append]
    omega

/-- The children `nodes` of the node entered last can be entered next. -/
theorem Ready.append (htree : tree.Sound) {node : NodeId} {trail : List NodeId} {rest : List Turn}
    {nodes : List NodeId} (hnodes : ∀ child ∈ nodes, child ∈ tree.children node)
    (hway : tree.ancestors node = node :: trail) (hrest : Ready tree (node :: trail) rest) :
    Ready tree (node :: trail) (nodes.map .enter ++ rest) := by
  induction nodes with
  | nil => exact hrest
  | cons child nodes ih =>
    rw [List.forall_mem_cons] at hnodes
    refine .enter (htree.contains_child hnodes.1) ?_ (ih hnodes.2)
    rw [htree.ancestors_child hnodes.1, hway]

/-! ## One turn -/

variable (look)

theorem Ready.turn (htree : tree.Sound) (h : Ready tree walk.trail walk.pending) :
    Ready tree (walk.turn tree look).trail (walk.turn tree look).pending := by
  obtain ⟨pending, trail, gathered⟩ := walk
  cases h with
  | done => exact .done
  | enter hnode hway hrest =>
    exact Ready.append htree (fun _ hchild => hchild) hway (.leave hrest)
  | leave hrest => exact hrest

/-- One turn keeps the `outcome`: a node that is entered is looked at first of all that lie below
it, and with the trail above it for its ancestors. -/
theorem outcome_turn (htree : tree.Sound) (h : Ready tree walk.trail walk.pending) :
    outcome tree look (walk.turn tree look) = outcome tree look walk := by
  obtain ⟨pending, trail, gathered⟩ := walk
  cases h with
  | done => rfl
  | @enter node trail rest hnode hway hrest =>
    simp only [outcome, Walk.turn, ahead_append, ahead, htree.descendants_eq hnode,
      List.cons_append, List.foldl_cons, hway, List.tail_cons]
  | leave hrest => rfl

theorem countdown_turn (htree : tree.Sound) (h : Ready tree walk.trail walk.pending) :
    countdown tree (walk.turn tree look).pending = countdown tree walk.pending - 1 := by
  obtain ⟨pending, trail, gathered⟩ := walk
  cases h with
  | done => rfl
  | @enter node trail rest hnode hway hrest =>
    simp only [Walk.turn, countdown_append, countdown, htree.descendants_eq hnode,
      List.length_cons]
    omega
  | leave hrest => simp [Walk.turn, countdown]

/-! ## The run -/

theorem turns_spec (htree : tree.Sound) (n : Nat) (h : Ready tree walk.trail walk.pending) :
    Ready tree (turns tree look n walk).trail (turns tree look n walk).pending ∧
      outcome tree look (turns tree look n walk) = outcome tree look walk ∧
      countdown tree (turns tree look n walk).pending = countdown tree walk.pending - n := by
  induction n generalizing walk with
  | zero => exact ⟨h, rfl, rfl⟩
  | succ n ih =>
    obtain ⟨hready, houtcome, hcountdown⟩ := ih (h.turn look htree)
    refine ⟨hready, houtcome.trans (outcome_turn look htree h), ?_⟩
    rw [turns, hcountdown, countdown_turn look htree h]
    omega

/-- A walk is over, with nothing `pending`, when its `countdown` is. -/
theorem Ready.pending_eq_nil (htree : tree.Sound) {trail : List NodeId} {pending : List Turn}
    (h : Ready tree trail pending) (hzero : countdown tree pending = 0) : pending = [] := by
  cases h with
  | done => rfl
  | enter hnode =>
    rw [countdown, htree.descendants_eq hnode, List.length_cons] at hzero
    omega
  | leave =>
    rw [countdown] at hzero
    omega

theorem ready_start (htree : tree.Sound) (init : σ) :
    Ready tree (start tree init).trail (start tree init).pending :=
  .enter htree.contains_root htree.ancestors_root .done

/-- After `2 * tree.size` turns nothing is left to do. -/
theorem pending_turns (htree : tree.Sound) (init : σ) :
    (turns tree look (2 * tree.size) (start tree init)).pending = [] := by
  obtain ⟨hready, -, hcountdown⟩ :=
    turns_spec look htree (2 * tree.size) (ready_start htree init)
  refine hready.pending_eq_nil htree ?_
  have hlength := htree.perm_descendants_root.length_eq
  rw [hcountdown, start, countdown, countdown, hlength, Tree.ids, List.length_map, List.length_range]
  omega

end Walk

/-- A walk looks at the descendants of the root in order, at each `node` with its ancestors. -/
theorem Tree.walk_eq_foldl {σ : Type} {tree : Tree} (htree : tree.Sound)
    (look : σ → NodeId → List NodeId → σ) (init : σ) :
    tree.walk look init = (tree.descendants tree.root).foldl
      (fun gathered node => look gathered node (tree.ancestors node).tail) init := by
  have hover := Walk.pending_turns look htree init
  obtain ⟨-, houtcome, -⟩ :=
    Walk.turns_spec look htree (2 * tree.size) (Walk.ready_start htree init)
  calc tree.walk look init
      = Walk.outcome tree look (Walk.turns tree look (2 * tree.size) (.start tree init)) := by
        rw [Tree.walk, Walk.outcome, hover, Walk.ahead, List.foldl_nil]
    _ = Walk.outcome tree look (.start tree init) := houtcome
    _ = _ := by simp only [Walk.outcome, Walk.start, Walk.ahead, List.append_nil]

end TreeLint
