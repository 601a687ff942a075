import TreeLint.Proofs.Tree.Below
import TreeLint.Rule.DiscardedResult

/-!
# The start of a chain of calls

`DiscardedResult.root?` walks from a callee outward with a bound on the number of steps. Here the
walk is a relation of its own that knows no bound.

- `Tree.Chain`: where the walk from a callee ends. It has one end (`Chain.unique`), and in a finished
  tree it has an end (`exists_chain`).
- `Tree.PlainName`: a name, or a name qualified by names alone.
- `isPlain_iff`, `exists_chain`: the bounded walks are these relations, so no bound is ever reached.
-/

namespace TreeLint

namespace DiscardedResult

/-- What a walk along a chain of calls comes to: `own`, a `receiver` or a `fault`. -/
inductive ChainEnd where
  /-- A callee without a receiver: a method called by its name alone. -/
  | own
  /-- A receiver, `node`, that is no call. -/
  | receiver (node : NodeId)
  /-- A node that lacks what its kind calls for: the `violation` says what is wrong with it. -/
  | fault (violation : Violation)

end DiscardedResult

namespace Tree

open DiscardedResult

/-- The walk outward from a `callee`: from a qualified name to its `receiver`, and when that is a
call, on to the callee of that call, `inner`. -/
inductive Chain (tree : Tree) : (callee : NodeId) → ChainEnd → Prop
  | own {callee : NodeId} (hkind : tree.kind? callee = some .identifier) : Chain tree callee .own
  | receiver {callee receiver : NodeId} (hkind : tree.kind? callee = some .memberSelect)
      (hreceiver : tree.receiver? callee = some receiver) (hcall : tree.isCall receiver = false) :
      Chain tree callee (.receiver receiver)
  | call {callee receiver inner : NodeId} {stop : ChainEnd}
      (hkind : tree.kind? callee = some .memberSelect)
      (hreceiver : tree.receiver? callee = some receiver) (hcall : tree.isCall receiver = true)
      (hinner : tree.callee? receiver = some inner) (h : Chain tree inner stop) :
      Chain tree callee stop
  | badCallee {callee : NodeId} {kind : Kind} (hkind : tree.kind? callee = some kind)
      (hname : kind ≠ .identifier) (hselect : kind ≠ .memberSelect) :
      Chain tree callee
        (.fault (callee, s!"callee is a {kind}, expected identifier or member_select"))
  | noReceiver {callee : NodeId} (hkind : tree.kind? callee = some .memberSelect)
      (hreceiver : tree.receiver? callee = none) :
      Chain tree callee (.fault (callee, "member select has no receiver"))
  | noCallee {callee receiver : NodeId} (hkind : tree.kind? callee = some .memberSelect)
      (hreceiver : tree.receiver? callee = some receiver) (hcall : tree.isCall receiver = true)
      (hinner : tree.callee? receiver = none) :
      Chain tree callee (.fault (receiver, "invocation has no callee"))

/-- A name, or a name qualified by names alone: `isPlain` without its bound. -/
inductive PlainName (tree : Tree) : NodeId → Prop
  | name {node : NodeId} (hkind : tree.kind? node = some .identifier) : PlainName tree node
  | qualified {node receiver : NodeId} (hkind : tree.kind? node = some .memberSelect)
      (hreceiver : tree.receiver? node = some receiver) (h : PlainName tree receiver) :
      PlainName tree node

variable {tree : Tree}

/-- A walk from `callee` has one end. -/
theorem Chain.unique {callee : NodeId} {stop stop' : ChainEnd} (h : tree.Chain callee stop)
    (h' : tree.Chain callee stop') : stop = stop' := by
  induction h generalizing stop' with
  | own hkind => cases h' <;> simp_all
  | receiver hkind hreceiver hcall => cases h' <;> simp_all
  | call hkind hreceiver hcall hinner _ ih =>
    cases h' with
    | call _ hreceiver' _ hinner' h' =>
      obtain rfl := Option.some.inj (hreceiver.symm.trans hreceiver')
      obtain rfl := Option.some.inj (hinner.symm.trans hinner')
      exact ih h'
    | _ => simp_all
  | badCallee hkind => cases h' <;> simp_all
  | noReceiver hkind hreceiver => cases h' <;> simp_all
  | noCallee hkind hreceiver hcall hinner => cases h' <;> simp_all

/-- The receiver `root` at the end of a walk is in the tree. -/
theorem Chain.contains_receiver (htree : tree.Sound) {callee root : NodeId}
    (h : tree.Chain callee (.receiver root)) : tree.contains root = true := by
  generalize hstop : ChainEnd.receiver root = stop at h
  induction h with
  | receiver _ hreceiver =>
    cases hstop
    exact htree.contains_child (List.mem_of_mem_head? hreceiver)
  | call _ _ _ _ _ ih => exact ih hstop
  | _ => cases hstop

theorem PlainName.kind? {node : NodeId} (h : tree.PlainName node) :
    tree.kind? node = some .identifier ∨ tree.kind? node = some .memberSelect := by
  cases h with
  | name hkind => exact .inl hkind
  | qualified hkind => exact .inr hkind

theorem exists_kind? {node : NodeId} (h : tree.contains node = true) :
    ∃ kind, tree.kind? node = some kind := by
  have hlt : node.index < tree.nodes.size := of_decide_eq_true h
  exact ⟨tree.nodes[node.index].kind, by simp [Tree.kind?, node?, hlt]⟩

theorem mem_children_of_receiver? {node receiver : NodeId}
    (h : tree.receiver? node = some receiver) : receiver ∈ tree.children node :=
  List.mem_of_mem_head? h

theorem mem_children_of_callee? {call callee : NodeId} (h : tree.callee? call = some callee) :
    callee ∈ tree.children call :=
  List.mem_of_mem_head? h

end Tree

namespace DiscardedResult

variable {tree : Tree} {settings : DiscardedResult} {visit : Visit}

/-! ## Bounds that leave room -/

/-- A bound leaves room for every way down from `node`. -/
def HasRoom (tree : Tree) (bound : Nat) (node : NodeId) : Prop :=
  tree.size < (tree.ancestors node).length + bound

theorem HasRoom.pos (htree : tree.Sound) {node : NodeId} {bound : Nat}
    (hnode : tree.contains node = true) (h : HasRoom tree bound node) :
    ∃ smaller, bound = smaller + 1 := by
  have hle := htree.length_ancestors_le hnode
  unfold HasRoom at h
  exact ⟨bound - 1, by omega⟩

/-- One level down, at `child`, a bound smaller by one is enough. -/
theorem HasRoom.child (htree : tree.Sound) {node child : NodeId} {bound : Nat}
    (hchild : child ∈ tree.children node) (h : HasRoom tree (bound + 1) node) :
    HasRoom tree bound child := by
  unfold HasRoom at h ⊢
  rw [htree.ancestors_child hchild, List.length_cons]
  omega

theorem HasRoom.mono {node : NodeId} {bound bound' : Nat} (h : HasRoom tree bound node)
    (hle : bound ≤ bound') : HasRoom tree bound' node := by
  unfold HasRoom at h ⊢
  omega

theorem hasRoom_size (htree : tree.Sound) {node : NodeId} (hnode : tree.contains node = true) :
    HasRoom tree tree.size node := by
  have hpos : 0 < (tree.ancestors node).length :=
    List.length_pos_of_mem (htree.climbs_ancestors hnode).mem_self
  unfold HasRoom
  omega

/-! ## The bounded walks -/

theorem isPlainWithin_iff (htree : tree.Sound) {bound : Nat} {node : NodeId}
    (hnode : tree.contains node = true) (hroom : HasRoom tree bound node) :
    isPlainWithin tree bound node = true ↔ tree.PlainName node := by
  induction bound generalizing node with
  | zero =>
    -- A node of the tree has room for itself, so the bound is not used up here.
    obtain ⟨_, h⟩ := hroom.pos htree hnode
    cases h
  | succ bound ih =>
    obtain ⟨kind, hkind⟩ := Tree.exists_kind? hnode
    unfold isPlainWithin
    rw [hkind]
    cases kind with
    | identifier => exact ⟨fun _ => .name hkind, fun _ => rfl⟩
    | memberSelect =>
      cases hreceiver : tree.receiver? node with
      | none =>
        refine ⟨fun h => by simp at h, fun h => ?_⟩
        cases h <;> simp_all
      | some receiver =>
        have hchild := Tree.mem_children_of_receiver? hreceiver
        have hstep := ih (htree.contains_child hchild) (hroom.child htree hchild)
        simp only [hstep]
        constructor
        · exact fun h => .qualified hkind hreceiver h
        · intro h
          cases h with
          | name hname => simp [hkind] at hname
          | qualified _ hreceiver' h =>
            obtain rfl := Option.some.inj (hreceiver.symm.trans hreceiver')
            exact h
    | _ =>
      refine ⟨fun h => by simp at h, fun h => ?_⟩
      rcases h.kind? with h | h <;> simp [hkind] at h

theorem isPlain_iff (htree : tree.Sound) {node : NodeId} (hnode : tree.contains node = true) :
    isPlain tree node = true ↔ tree.PlainName node :=
  isPlainWithin_iff htree hnode (hasRoom_size htree hnode)

/-- What the rule makes of the end of a chain: the variable that a `receiver` is, nothing, or the
`violation`. -/
def rootAt (settings : DiscardedResult) (visit : Visit) : ChainEnd →
    Except Violation (Option NodeId)
  | .own => .ok none
  | .receiver node =>
    .ok (if isPlain visit.tree node && settings.isVariable visit node then some node else none)
  | .fault violation => .error violation

/-- A walk from `callee` with room to go (`hroom`) ends at some `stop`, and gives what `rootAt`
makes of it. -/
theorem exists_chain_within (htree : visit.tree.Sound) {bound : Nat} {callee : NodeId}
    (hcallee : visit.tree.contains callee = true) (hroom : HasRoom visit.tree bound callee) :
    ∃ stop, visit.tree.Chain callee stop ∧
      settings.rootWithin? visit bound callee = settings.rootAt visit stop := by
  induction bound generalizing callee with
  | zero =>
    -- The bound is not used up at a node of the tree.
    obtain ⟨_, h⟩ := hroom.pos htree hcallee
    cases h
  | succ bound ih =>
    obtain ⟨kind, hkind⟩ := Tree.exists_kind? hcallee
    unfold rootWithin?
    rw [hkind]
    cases kind with
    | identifier => exact ⟨.own, .own hkind, rfl⟩
    | memberSelect =>
      cases hreceiver : visit.tree.receiver? callee with
      | none => exact ⟨_, .noReceiver hkind hreceiver, rfl⟩
      | some receiver =>
        have hbelow := Tree.mem_children_of_receiver? hreceiver
        have hcontains := htree.contains_child hbelow
        obtain ⟨receiverKind, hreceiverKind⟩ := Tree.exists_kind? hcontains
        by_cases hcall : receiverKind = .methodInvocation
        · have hiscall : visit.tree.isCall receiver = true := by
            simp [Tree.isCall, hreceiverKind, hcall]
          simp only [hreceiverKind, hcall]
          cases hinner : visit.tree.callee? receiver with
          | none => exact ⟨_, .noCallee hkind hreceiver hiscall hinner, rfl⟩
          | some inner =>
            -- The inner callee lies two levels down.
            have hbelow' := Tree.mem_children_of_callee? hinner
            have hroom' : HasRoom visit.tree bound inner :=
              ((hroom.mono (Nat.le_succ _)).child htree hbelow).child htree hbelow'
            obtain ⟨stop, hchain, heq⟩ := ih (htree.contains_child hbelow') hroom'
            exact ⟨stop, .call hkind hreceiver hiscall hinner hchain, heq⟩
        · have hiscall : visit.tree.isCall receiver = false := by
            simp [Tree.isCall, hreceiverKind, hcall]
          refine ⟨.receiver receiver, .receiver hkind hreceiver hiscall, ?_⟩
          have hplain : receiverKind ≠ .identifier → receiverKind ≠ .memberSelect →
              isPlain visit.tree receiver = false := by
            intro hname hselect
            rw [← Bool.not_eq_true, isPlain_iff htree hcontains]
            intro h
            rcases h.kind? with h | h <;> simp_all
          unfold rootAt
          simp only [hreceiverKind]
          cases receiverKind <;> simp_all
    | _ => exact ⟨_, .badCallee hkind (by simp) (by simp), rfl⟩

/-- The walk from a `callee` of the tree ends at some `stop`, and gives what `rootAt` makes of
it. -/
theorem exists_chain (settings : DiscardedResult) (htree : visit.tree.Sound) {callee : NodeId}
    (hcallee : visit.tree.contains callee = true) :
    ∃ stop, visit.tree.Chain callee stop ∧
      settings.root? visit callee = settings.rootAt visit stop :=
  exists_chain_within htree hcallee (hasRoom_size htree hcallee)

end DiscardedResult

end TreeLint
