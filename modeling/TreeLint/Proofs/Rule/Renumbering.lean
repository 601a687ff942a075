import TreeLint.Proofs.Rule.Chain
import TreeLint.Proofs.Scan.Visits
import TreeLint.Proofs.Typing.Renumbering

/-!
# What rules see

Where two trees look alike and their types are equal up to numbers, what can be asked at a node of
one has the answer that it has at the node of the other. Both runs take the same branches, step by
step.

- `Visit.Alike`: two visits that see the same up to numbers.
- `Matcher.holds_renumbered`: what a matcher says.
- `DiscardedResult.check_renumbered`: the rule on discarded results, with any settings;
  `check_cases`: what the rule can say.
-/

namespace TreeLint

/-- Two visits see the same up to the numbers of nodes, `σ`, and of types, `τ`. -/
structure Visit.Alike (σ : NodeId ≃ NodeId) (τ : TypeId ≃ TypeId) (visit visit' : Visit) :
    Prop where
  sound : visit.tree.Sound
  tree : visit.tree.Alike σ visit'.tree
  types : visit.types.Renumbered visit.tree σ τ visit'.types
  /-- The trails show no parents but those that the links show. -/
  parent? : (∀ id, visit.parent? id = visit.tree.parent? id) ∧
    ∀ id, visit'.parent? id = visit'.tree.parent? id

variable {σ : NodeId ≃ NodeId} {τ : TypeId ≃ TypeId} {visit visit' : Visit}

theorem Visit.alike_on {tree tree' : Tree} {types types' : TypeTable} {node : NodeId}
    (htree : tree.Sound) (h : tree.Alike σ tree') (htypes : types.Renumbered tree σ τ types')
    (hnode : tree.contains node = true) :
    Visit.Alike σ τ (.on tree types node) (.on tree' types' (σ node)) where
  sound := htree
  tree := h
  types := htypes
  parent? := ⟨Visit.parent?_on types htree hnode,
    Visit.parent?_on types' (h.sound htree) (by rw [h.contains, hnode])⟩

/-! ## Matchers -/

theorem Visit.Alike.answers (h : Visit.Alike σ τ visit visit') :
    visit.Answers σ τ (fun x => visit.tree.contains x = true) visit' where
  kind? x _ := h.tree.kind? x
  parent? x _ := by rw [h.parent?.1, h.parent?.2, h.tree.parent?]
  callee? x _ := h.tree.callee? x
  ownerOf? _ hx := h.types.ownerOf? hx
  returnsOf? _ hx := h.types.returnsOf? hx
  typeName? := h.types.name
  injective := τ.injective
  known_parent x above _ habove := by
    rw [h.parent?.1] at habove
    exact h.sound.contains_parent habove
  known_callee _ _ _ htarget := h.sound.contains_child (Tree.mem_children_of_callee? htarget)

/-- A matcher `m` holds for `x` when it holds for `σ x`, which looks like it. -/
theorem Matcher.holds_renumbered (h : Visit.Alike σ τ visit visit') (m : Matcher) {x : NodeId}
    (hx : visit.tree.contains x = true) : m.holds visit' (σ x) = m.holds visit x :=
  m.holds_of_answers h.answers x hx

/-! ## The rule on discarded results -/

/-- The description `d` with `σ` applied to its anchor. -/
def Description.renumber (σ : NodeId ≃ NodeId) (d : Description) : Description :=
  { d with anchor := σ d.anchor }

/-- The verdict with `σ` applied to the nodes it names. -/
def Verdict.renumber (σ : NodeId ≃ NodeId) : Verdict → Verdict
  | .noMatch => .noMatch
  | .finding d => .finding (d.renumber σ)
  | .violation place detail => .violation (σ place) detail
  | .breakdown detail => .breakdown detail

namespace DiscardedResult

/-- A result with other numbers for the nodes it names: `value` says how for what is found. -/
def renumberResult {α : Type} (σ : NodeId ≃ NodeId) (value : α → α) :
    Except Violation α → Except Violation α
  | .ok found => .ok (value found)
  | .error (place, detail) => .error (σ place, detail)

theorem isPlain_renumbered {tree tree' : Tree} (h : tree.Alike σ tree') (node : NodeId) :
    isPlain tree' (σ node) = isPlain tree node := by
  unfold isPlain
  rw [h.size]
  generalize tree.size = bound
  induction bound generalizing node with
  | zero => rfl
  | succ bound ih =>
    rw [isPlainWithin, isPlainWithin, h.kind?, h.receiver?]
    cases tree.receiver? node with
    | none => rfl
    | some receiver =>
      rw [Option.map_some]
      simp only [ih receiver]

variable (settings : DiscardedResult)

/-- The `root` of a chain is a node of the tree. -/
theorem contains_of_root? (hsound : visit.tree.Sound) {callee root : NodeId}
    (hcallee : visit.tree.contains callee = true)
    (hroot : settings.root? visit callee = .ok (some root)) :
    visit.tree.contains root = true := by
  obtain ⟨stop, hchain, heq⟩ := exists_chain settings hsound hcallee
  rw [hroot] at heq
  cases stop with
  | own => cases heq
  | fault violation => cases heq
  | receiver node =>
    simp only [rootAt, Except.ok.injEq] at heq
    split at heq
    · cases heq
      exact hchain.contains_receiver hsound
    · cases heq

/-- A finding `d` is about the `call` asked about, and proposes one edit. -/
theorem describe_ok {call : NodeId} {d : Description}
    (hd : settings.describe visit call = .ok d) : d.anchor = call ∧ ∃ e, d.edits = [e] := by
  unfold describe at hd
  split at hd
  · cases hd
  · split at hd
    · cases hd
    · split at hd
      · cases hd
      · split at hd <;> cases hd <;> exact ⟨rfl, _, rfl⟩

/-- The rule says nothing, or what is wrong with `node` and one edit, or where it cannot go on. -/
theorem check_cases (visit : Visit) (node : NodeId) : settings.check visit node = .noMatch ∨
    (∃ d, settings.check visit node = .finding d ∧ d.anchor = node ∧ ∃ e, d.edits = [e]) ∨
    ∃ place detail, settings.check visit node = .violation place detail := by
  unfold check
  split
  · cases hdescribe : settings.describe visit node with
    | ok d => exact .inr (.inl ⟨d, rfl, describe_ok settings hdescribe⟩)
    | error violation => exact .inr (.inr ⟨violation.1, violation.2, rfl⟩)
  · exact .inl rfl

variable (h : Visit.Alike σ τ visit visit')

include h

theorem isVariable_renumbered {node : NodeId} (hnode : visit.tree.contains node = true) :
    settings.isVariable visit' (σ node) = settings.isVariable visit node := by
  rw [isVariable, isVariable, h.types.bound node hnode, h.tree.text]
  cases visit.types.binding? node <;> rfl

theorem canHold_renumbered {root callee : NodeId} (hroot : visit.tree.contains root = true)
    (hcallee : visit.tree.contains callee = true) :
    canHold visit' (σ root) (σ callee) = canHold visit root callee := by
  rw [canHold, canHold, h.types.typeOf? hroot, h.types.returnsOf? hcallee]
  cases visit.types.typeOf? root with
  | none => rfl
  | some rootType =>
    cases visit.types.returnsOf? callee with
    | none => rfl
    | some returned => exact h.types.isAssignable returned rootType

/-- Both walks along a chain, from `callee` and from `σ callee`, take the same steps. -/
theorem root?_renumbered {callee : NodeId} :
    settings.root? visit' (σ callee) =
      renumberResult σ (Option.map σ) (settings.root? visit callee) := by
  unfold root?
  rw [h.tree.size]
  generalize visit.tree.size = bound
  induction bound generalizing callee with
  | zero => rfl
  | succ bound ih =>
    rw [rootWithin?, rootWithin?, h.tree.kind?, h.tree.receiver?]
    cases hkind : visit.tree.kind? callee with
    | none => rfl
    | some kind =>
      cases kind with
      -- Only a qualified name has a receiver to go on from.
      | memberSelect =>
        cases hreceiver : visit.tree.receiver? callee with
        | none => rfl
        | some receiver =>
          have hcontains := h.sound.contains_child (Tree.mem_children_of_receiver? hreceiver)
          simp only [Option.map_some]
          rw [h.tree.kind?, h.tree.callee?, isPlain_renumbered h.tree,
            isVariable_renumbered settings h hcontains]
          cases hreceiverKind : visit.tree.kind? receiver with
          | none => rfl
          | some kind =>
            cases kind with
            | identifier | memberSelect =>
              by_cases hplain :
                  (isPlain visit.tree receiver && settings.isVariable visit receiver) = true
              · simp [hplain, renumberResult]
              · simp [hplain, renumberResult]
            | methodInvocation =>
              cases visit.tree.callee? receiver with
              | none => rfl
              | some inner => exact ih
            | _ => rfl
      | _ => rfl

theorem describe_renumbered {call : NodeId} : settings.describe visit' (σ call) =
    renumberResult σ (Description.renumber σ) (settings.describe visit call) := by
  rw [describe, describe, h.tree.callee?, h.parent?.1, h.parent?.2, h.tree.parent?]
  cases hcallee : visit.tree.callee? call with
  | none => rfl
  | some callee =>
    cases visit.tree.parent? call with
    | none => rfl
    | some statement =>
      have hcontains := h.sound.contains_child (Tree.mem_children_of_callee? hcallee)
      simp only [Option.map_some]
      rw [root?_renumbered settings h, h.tree.range, h.tree.range]
      cases hroot : settings.root? visit callee with
      | error violation => rfl
      | ok root =>
        cases root with
        | none => rfl
        | some root =>
          have hhold := canHold_renumbered h
            (contains_of_root? settings h.sound hcontains hroot) hcontains
          by_cases hholds : canHold visit root callee = true
          · simp [renumberResult, Option.filter, hhold, hholds, h.tree.text, Description.renumber]
          · simp [renumberResult, Option.filter, hhold, hholds, Description.renumber]

/-- **The rule on discarded results.** What the rule says about `node` in `visit` it says about
`σ node` in `visit'`: nothing depends on numbers, but for the numbers of the nodes that it names,
nor on anything else that visits do not show. -/
theorem check_renumbered {node : NodeId} (hnode : visit.tree.contains node = true) :
    settings.check visit' (σ node) = (settings.check visit node).renumber σ := by
  rw [check, check, h.tree.isCall, settings.matcher.holds_renumbered h hnode,
    describe_renumbered settings h]
  split
  · cases settings.describe visit node <;> rfl
  · rfl

end DiscardedResult

end TreeLint
