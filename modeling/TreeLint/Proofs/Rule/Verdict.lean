import TreeLint.Proofs.Rule.Chain
import TreeLint.Proofs.Scan.Visits
import TreeLint.Proofs.Typing.Above

/-!
# What the rule on discarded results says

- `Flagged`: a statement that is a call of a method of a configured type, returning that type.
- `Target`: a variable at the start of a chain of calls that can hold the result.
- `matcher_holds_iff`, `describe_eq`: the two parts of the check in these terms.
- `check_spec`: the verdict at every node.
- `builderTree`: the tree of a statement with three calls, and what the rule makes of it.
-/

namespace TreeLint

namespace DiscardedResult

variable {settings : DiscardedResult} {tree : Tree} {types : TypeTable} {visit : Visit}
variable {node callee statement root : NodeId} {owner : TypeId}

/-- The `node` is a call and the `statement` around it, and its `callee` refers to a method that
returns the type that declares it, `owner`, one of those configured. -/
structure Flagged (settings : DiscardedResult) (tree : Tree) (types : TypeTable)
    (node callee statement : NodeId) (owner : TypeId) : Prop where
  isCall : tree.isCall node = true
  hasParent : tree.parent? node = some statement
  isStatement : tree.kind? statement = some .expressionStatement
  hasCallee : tree.callee? node = some callee
  declaredBy : types.ownerOf? callee = some owner
  returns : types.returnsOf? callee = some owner
  configured : ∃ name ∈ settings.types, types.typeName? owner = some name

/-- A plain name for a local variable or a field, of a type to which `returned` can be assigned, that
is not the self keyword. -/
structure Target (settings : DiscardedResult) (tree : Tree) (types : TypeTable)
    (returned : TypeId) (root : NodeId) : Prop where
  plain : tree.PlainName root
  bound : ∃ binding, types.binding? root = some binding ∧
    (binding.kind = .localVariable ∨ binding.kind = .field) ∧
    ∃ type, binding.type = some type ∧ types.Above returned type
  notSelf : tree.text root ≠ settings.selfKeyword

/-! ## The matcher -/

theorem Flagged.unique {callee' statement' : NodeId} {owner' : TypeId}
    (h : Flagged settings tree types node callee statement owner)
    (h' : Flagged settings tree types node callee' statement' owner') :
    callee = callee' ∧ statement = statement' ∧ owner = owner' := by
  obtain rfl := Option.some.inj (h.hasCallee.symm.trans h'.hasCallee)
  obtain rfl := Option.some.inj (h.hasParent.symm.trans h'.hasParent)
  exact ⟨rfl, rfl, Option.some.inj (h.declaredBy.symm.trans h'.declaredBy)⟩

/-- The `callee` of a call satisfies the inner part of the matcher. -/
theorem callee_holds_iff :
    Matcher.holds visit (.all [.ownerIn settings.types, .returnsOwner]) callee = true ↔
      ∃ owner, visit.types.ownerOf? callee = some owner ∧
        visit.types.returnsOf? callee = some owner ∧
        ∃ name ∈ settings.types, visit.types.typeName? owner = some name := by
  rw [Matcher.holds_all_iff, List.forall_mem_cons, List.forall_mem_singleton,
    Matcher.holds_ownerIn_iff, Matcher.holds_returnsOwner_iff]
  constructor
  · rintro ⟨⟨owner, howner, hname⟩, owner', howner', hreturns⟩
    obtain rfl := Option.some.inj (howner.symm.trans howner')
    exact ⟨owner, howner, hreturns, hname⟩
  · rintro ⟨owner, howner, hreturns, hname⟩
    exact ⟨⟨owner, howner, hname⟩, owner, howner, hreturns⟩

/-- The calls `node` that the matcher holds for are the `Flagged` ones. -/
theorem matcher_holds_iff (hparent : ∀ x, visit.parent? x = visit.tree.parent? x) :
    (visit.tree.isCall node && settings.matcher.holds visit node) = true ↔
      ∃ callee statement owner,
        Flagged settings visit.tree visit.types node callee statement owner := by
  rw [Bool.and_eq_true, matcher, Matcher.holds_all_iff, List.forall_mem_cons,
    List.forall_mem_singleton, Matcher.holds_parent_iff, Matcher.holds_callee_iff, hparent]
  constructor
  · rintro ⟨hcall, ⟨statement, hstatement, hkind⟩, -, callee, hcallee, hinner⟩
    obtain ⟨owner, howner, hreturns, hname⟩ := callee_holds_iff.mp hinner
    exact ⟨callee, statement, owner, hcall, hstatement, Matcher.holds_kindIs_iff.mp hkind, hcallee,
      howner, hreturns, hname⟩
  · rintro ⟨callee, statement, owner, h⟩
    exact ⟨h.isCall, ⟨statement, h.hasParent, Matcher.holds_kindIs_iff.mpr h.isStatement⟩, h.isCall,
      callee, h.hasCallee, callee_holds_iff.mpr ⟨owner, h.declaredBy, h.returns, h.configured⟩⟩

/-! ## The finding -/

/-- A `root` that the rule takes for the target of an assignment is a `Target`. -/
theorem target_iff (settings : DiscardedResult) (htree : visit.tree.Sound)
    (hroot : visit.tree.contains root = true) (hreturns : visit.types.returnsOf? callee = some owner) :
    (isPlain visit.tree root && settings.isVariable visit root && canHold visit root callee) = true ↔
      Target settings visit.tree visit.types owner root := by
  rw [Bool.and_eq_true, Bool.and_eq_true, isPlain_iff htree hroot]
  cases hbinding : visit.types.binding? root with
  | none =>
    refine ⟨fun h => by simp [isVariable, hbinding] at h, fun h => ?_⟩
    obtain ⟨binding, hbinding', -⟩ := h.bound
    simp [hbinding] at hbinding'
  | some binding =>
    have hvariable : settings.isVariable visit root = true ↔
        (binding.kind = .localVariable ∨ binding.kind = .field) ∧
          visit.tree.text root ≠ settings.selfKeyword := by
      simp [isVariable, hbinding]
    have hhold : canHold visit root callee = true ↔
        ∃ type, binding.type = some type ∧ visit.types.Above owner type := by
      cases htype : binding.type with
      | none => simp [canHold, TypeTable.typeOf?, hbinding, htype]
      | some type =>
        simp [canHold, TypeTable.typeOf?, hbinding, htype, hreturns, TypeTable.isAssignable_iff]
    rw [hvariable, hhold]
    constructor
    · rintro ⟨⟨hplain, hkind, htext⟩, htype⟩
      exact ⟨hplain, ⟨binding, hbinding, hkind, htype⟩, htext⟩
    · intro h
      obtain ⟨_, hbinding', hkind, htype⟩ := h.bound
      obtain rfl := Option.some.inj (hbinding.symm.trans hbinding')
      exact ⟨⟨h.plain, hkind, h.notSelf⟩, htype⟩

/-- The finding that assigns the result of a call to `root`. -/
def assignment (tree : Tree) (node root : NodeId) : Description where
  anchor := node
  message := message
  help := some ("Assign the result back to \x60" ++ tree.text root ++ "\x60")
  edits := [.insertBefore (tree.range node) (tree.text root ++ " = ")]

/-- The finding that deletes the `statement` around the call `node`. -/
def deletion (tree : Tree) (node statement : NodeId) : Description where
  anchor := node
  message := message
  help := some "Remove the statement; the call has no effect"
  edits := [.delete (tree.range statement)]

/-- The description of a `Flagged` call, told from the end `stop` of its chain. -/
theorem describe_eq (htree : visit.tree.Sound)
    (hparent : ∀ x, visit.parent? x = visit.tree.parent? x)
    (h : Flagged settings visit.tree visit.types node callee statement owner) :
    ∃ stop, visit.tree.Chain callee stop ∧
      ((∃ violation, stop = .fault violation ∧ settings.describe visit node = .error violation) ∨
      (∃ root, stop = .receiver root ∧ Target settings visit.tree visit.types owner root ∧
        settings.describe visit node = .ok (assignment visit.tree node root)) ∨
      ((∀ violation, stop ≠ .fault violation) ∧
        (∀ root, stop = .receiver root → ¬ Target settings visit.tree visit.types owner root) ∧
        settings.describe visit node = .ok (deletion visit.tree node statement))) := by
  have hnode : visit.tree.contains node = true :=
    htree.contains_child (htree.parent?_eq_some_iff.mp h.hasParent)
  have hcallee : visit.tree.contains callee = true :=
    htree.contains_child (Tree.mem_children_of_callee? h.hasCallee)
  obtain ⟨stop, hchain, hroot⟩ := exists_chain settings htree hcallee
  refine ⟨stop, hchain, ?_⟩
  unfold describe
  simp only [h.hasCallee, hparent, h.hasParent, hroot]
  cases stop with
  | own => exact .inr (.inr ⟨by simp, by simp, rfl⟩)
  | fault violation => exact .inl ⟨violation, rfl, rfl⟩
  | receiver root =>
    have hcontains := hchain.contains_receiver htree
    have htarget := target_iff settings htree hcontains h.returns
    right
    -- A receiver that is no plain variable is dropped by the walk, one of another type by the
    -- description.
    by_cases hplain : (isPlain visit.tree root && settings.isVariable visit root) = true
    · rw [hplain, Bool.true_and] at htarget
      simp only [rootAt, hplain, if_true]
      by_cases hhold : canHold visit root callee = true
      · exact .inl ⟨root, rfl, htarget.mp hhold, by simp [Option.filter, hhold, assignment]⟩
      · refine .inr ⟨by simp, ?_, by simp [Option.filter, hhold, deletion]⟩
        rintro _ ⟨⟩
        exact fun h => hhold (htarget.mpr h)
    · refine .inr ⟨by simp, ?_, by simp [rootAt, hplain, Option.filter, deletion]⟩
      rintro _ ⟨⟩ h
      have := htarget.mpr h
      rw [Bool.and_eq_true] at this
      exact hplain this.1

/-- What the rule makes of a `Flagged` call, told from the end `stop` of its chain. -/
theorem check_eq_of_flagged (visit : Visit) (htree : visit.tree.Sound)
    (hparent : ∀ x, visit.parent? x = visit.tree.parent? x)
    (h : Flagged settings visit.tree visit.types node callee statement owner) :
    ∃ stop, visit.tree.Chain callee stop ∧
      ((∃ place detail, stop = .fault (place, detail) ∧
        settings.check visit node = .violation place detail) ∨
      (∃ root, stop = .receiver root ∧ Target settings visit.tree visit.types owner root ∧
        settings.check visit node = .finding (assignment visit.tree node root)) ∨
      ((∀ violation, stop ≠ .fault violation) ∧
        (∀ root, stop = .receiver root → ¬ Target settings visit.tree visit.types owner root) ∧
        settings.check visit node = .finding (deletion visit.tree node statement))) := by
  have hmatch := (matcher_holds_iff hparent).mpr ⟨callee, statement, owner, h⟩
  obtain ⟨stop, hchain, hend⟩ := describe_eq htree hparent h
  refine ⟨stop, hchain, ?_⟩
  unfold check
  rw [if_pos hmatch]
  rcases hend with ⟨⟨place, detail⟩, hstop, he⟩ | ⟨root, hstop, htarget, he⟩ | ⟨hno, hroot, he⟩
  · exact .inl ⟨place, detail, hstop, by rw [he]⟩
  · exact .inr (.inl ⟨root, hstop, htarget, by rw [he]⟩)
  · exact .inr (.inr ⟨hno, hroot, by rw [he]⟩)

theorem check_eq_noMatch_iff (visit : Visit) (htree : visit.tree.Sound)
    (hparent : ∀ x, visit.parent? x = visit.tree.parent? x) :
    settings.check visit node = .noMatch ↔ ¬ ∃ callee statement owner,
      Flagged settings visit.tree visit.types node callee statement owner := by
  constructor
  · rintro hcheck ⟨callee, statement, owner, h⟩
    obtain ⟨_, _, ⟨_, _, _, he⟩ | ⟨_, _, _, he⟩ | ⟨_, _, he⟩⟩ := check_eq_of_flagged visit htree hparent h
    all_goals rw [hcheck] at he; cases he
  · intro h
    rw [← matcher_holds_iff hparent] at h
    unfold check
    rw [if_neg h]

/-- **The verdict.** In a finished tree, at any `node`, asked at any moment of a walk or outside of
one (`hvisit`): the rule says nothing unless the node is `Flagged`. A chain from the `callee` of a
flagged call has one end, `stop`. The rule reports a violation exactly when that is a `fault`;
otherwise its finding has one edit, which is an `assignment` of the result to the `root` of the
chain exactly when that is a `Target`, and a `deletion` of the statement around the call when
not. -/
theorem check_spec (tree : Tree) (types : TypeTable) (settings : DiscardedResult) (visit : Visit)
    (node : NodeId) (hfinished : tree.Finished)
    (hvisit : visit = { tree, types } ∨
      ∃ current, tree.contains current = true ∧ visit = .on tree types current) :
    (settings.check visit node = .noMatch ↔
      ¬ ∃ callee statement owner, Flagged settings tree types node callee statement owner) ∧
    ∀ callee statement owner, Flagged settings tree types node callee statement owner →
      ∃ stop, tree.Chain callee stop ∧ (∀ stop', tree.Chain callee stop' → stop' = stop) ∧
        (∀ place detail, settings.check visit node = .violation place detail ↔
          stop = .fault (place, detail)) ∧
        (∀ description, settings.check visit node = .finding description ↔
          (∃ root, stop = .receiver root ∧ Target settings tree types owner root ∧
            description = assignment tree node root) ∨
          ((∀ violation, stop ≠ .fault violation) ∧
            (∀ root, stop = .receiver root → ¬ Target settings tree types owner root) ∧
            description = deletion tree node statement)) := by
  have htree := hfinished.sound
  obtain ⟨htree', htypes, hparent⟩ : visit.tree = tree ∧ visit.types = types ∧
      ∀ x, visit.parent? x = visit.tree.parent? x := by
    rcases hvisit with rfl | ⟨current, hcurrent, rfl⟩
    · exact ⟨rfl, rfl, fun _ => rfl⟩
    · exact ⟨rfl, rfl, Visit.parent?_on types htree hcurrent⟩
  subst htree' htypes
  refine ⟨check_eq_noMatch_iff visit htree hparent, fun callee statement owner h => ?_⟩
  obtain ⟨stop, hchain, hend⟩ := check_eq_of_flagged visit htree hparent h
  refine ⟨stop, hchain, fun stop' hchain' => hchain'.unique hchain, ?_⟩
  -- Each end of the chain gives one verdict, so each equivalence is settled by the case at hand.
  rcases hend with ⟨place, detail, rfl, he⟩ | ⟨root, rfl, htarget, he⟩ | ⟨hno, hroot, he⟩
  · simp [he, eq_comm]
  · constructor
    · simp [he]
    · intro description
      rw [he, Verdict.finding.injEq]
      constructor
      · rintro rfl
        exact .inl ⟨root, rfl, htarget, rfl⟩
      · rintro (⟨root', ⟨⟩, -, rfl⟩ | ⟨-, hroot, -⟩)
        · rfl
        · exact (hroot root rfl htarget).elim
  · constructor
    · intro place detail
      simp [he, hno]
    · intro description
      rw [he, Verdict.finding.injEq]
      constructor
      · rintro rfl
        exact .inr ⟨hno, hroot, rfl⟩
      · rintro (⟨root, hstop, htarget, -⟩ | ⟨-, -, rfl⟩)
        · exact (hroot root hstop htarget).elim
        · rfl

/-! ## A chain of three calls -/

/-- Calls that build `builderTree`, node below node. -/
def builderCalls : List BuilderCall :=
  [.push .compilationUnit ⟨0, 30⟩ none, .push .expressionStatement ⟨0, 30⟩ none,
    .push .methodInvocation ⟨0, 29⟩ none, .push .memberSelect ⟨0, 27⟩ (some "trim"),
    .push .methodInvocation ⟨0, 22⟩ none, .push .memberSelect ⟨0, 20⟩ (some "toString"),
    .push .methodInvocation ⟨0, 11⟩ none, .push .memberSelect ⟨0, 9⟩ (some "reverse"),
    .push .identifier ⟨0, 1⟩ (some "b"), .attach ⟨0⟩ ⟨1⟩, .attach ⟨1⟩ ⟨2⟩, .attach ⟨2⟩ ⟨3⟩,
    .attach ⟨3⟩ ⟨4⟩, .attach ⟨4⟩ ⟨5⟩, .attach ⟨5⟩ ⟨6⟩, .attach ⟨6⟩ ⟨7⟩, .attach ⟨7⟩ ⟨8⟩]

/-- A statement that trims the text of a string builder and drops the result. -/
def builderTree : Tree where
  path := "A.java"
  source := "b.reverse().toString().trim();"
  nodes := #[
    { kind := .compilationUnit, range := ⟨0, 30⟩, children := [⟨1⟩] },
    { kind := .expressionStatement, range := ⟨0, 30⟩, parent := some ⟨0⟩, children := [⟨2⟩] },
    { kind := .methodInvocation, range := ⟨0, 29⟩, parent := some ⟨1⟩, children := [⟨3⟩] },
    { kind := .memberSelect, range := ⟨0, 27⟩, name := some "trim", parent := some ⟨2⟩,
      children := [⟨4⟩] },
    { kind := .methodInvocation, range := ⟨0, 22⟩, parent := some ⟨3⟩, children := [⟨5⟩] },
    { kind := .memberSelect, range := ⟨0, 20⟩, name := some "toString", parent := some ⟨4⟩,
      children := [⟨6⟩] },
    { kind := .methodInvocation, range := ⟨0, 11⟩, parent := some ⟨5⟩, children := [⟨7⟩] },
    { kind := .memberSelect, range := ⟨0, 9⟩, name := some "reverse", parent := some ⟨6⟩,
      children := [⟨8⟩] },
    { kind := .identifier, range := ⟨0, 1⟩, name := some "b", parent := some ⟨7⟩ }]
  root := ⟨0⟩

/-- In `builderTree` the variable is a string builder, and so is what it reverses to; the rest are
strings. -/
def builderTypes : TypeTable where
  types := #[{ name := "java.lang.StringBuilder" }, { name := "java.lang.String" }]
  bindings := [(⟨8⟩, { kind := .localVariable, type := some ⟨0⟩ }),
    (⟨7⟩, { kind := .method, owner := some ⟨0⟩, returns := some ⟨0⟩ }),
    (⟨5⟩, { kind := .method, owner := some ⟨0⟩, returns := some ⟨1⟩ }),
    (⟨3⟩, { kind := .method, owner := some ⟨1⟩, returns := some ⟨1⟩ })]

theorem finished_builderTree : builderTree.Finished := by
  refine ⟨builderTree.path, builderTree.source, builderCalls, ⟨0⟩, by decide,
    Builder.finish_eq_ok_iff_checks.mpr
      ⟨by decide, rfl, rfl, Builder.checkReach_eq_ok_iff.mpr ⟨by decide, ?_⟩, rfl⟩⟩
  -- Every node hangs from the one before it.
  rintro ⟨index⟩ hindex
  have hlt : index < 9 := of_decide_eq_true hindex
  clear hindex
  induction index with
  | zero => exact .refl
  | succ index ih =>
    refine (ih (by omega)).tail ?_
    have hlinks : ∀ index < 8, (⟨index + 1⟩ : NodeId) ∈
        ((Builder.start builderTree.path builderTree.source).performAll builderCalls).children
          ⟨index⟩ := by decide
    exact hlinks index (by omega)

theorem flagged_builderTree : Flagged default builderTree builderTypes ⟨2⟩ ⟨3⟩ ⟨1⟩ ⟨1⟩ :=
  ⟨rfl, rfl, rfl, rfl, rfl, rfl, "java.lang.String", .head _, rfl⟩

/-- The chain goes from `⟨3⟩` back over two calls to the variable `⟨8⟩`. -/
theorem chain_builderTree : builderTree.Chain ⟨3⟩ (.receiver ⟨8⟩) :=
  .call rfl rfl rfl rfl (.call rfl rfl rfl rfl (.receiver rfl rfl rfl))

/-- The string builder `⟨8⟩` holds no string. -/
theorem not_target_builderTree : ¬ Target default builderTree builderTypes ⟨1⟩ ⟨8⟩ := by
  intro h
  obtain ⟨binding, hbinding, -, type, htype, habove⟩ := h.bound
  cases hbinding
  cases htype
  rcases Relation.ReflTransGen.cases_head habove with heq | ⟨super, hsuper, -⟩
  · cases heq
  · cases hsuper

theorem check_spec_builderTree :
    builderTree.Finished ∧
      Flagged default builderTree builderTypes ⟨2⟩ ⟨3⟩ ⟨1⟩ ⟨1⟩ ∧
      default.check { tree := builderTree, types := builderTypes } ⟨2⟩ =
        .finding (deletion builderTree ⟨2⟩ ⟨1⟩) := by
  refine ⟨finished_builderTree, flagged_builderTree, ?_⟩
  obtain ⟨-, hflagged⟩ := check_spec builderTree builderTypes default _ ⟨2⟩ finished_builderTree
    (.inl rfl)
  obtain ⟨stop, hchain, -, -, hfinding⟩ := hflagged _ _ _ flagged_builderTree
  obtain rfl := chain_builderTree.unique hchain
  refine (hfinding _).mpr (.inr ⟨by simp, ?_, rfl⟩)
  rintro _ ⟨⟩
  exact not_target_builderTree

end DiscardedResult

end TreeLint
