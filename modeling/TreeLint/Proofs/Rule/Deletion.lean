import TreeLint.Proofs.Rule.Verdict
import TreeLint.Proofs.Scan.Isolation

/-!
# What a deletion takes away

The rule deletes a statement when its outermost call belongs to one of the configured types. The
calls inside that call, along its chain and among its arguments, go with it, whatever they belong to.

- `mem_diagnostics_iff`: the diagnostics of the rule in a scan, among those of any other rules.
- `flagged_of_deletion`: the call that a deletion is about.
- `not_all_calls_configured`: a deleted statement with a call of a type that is not configured.
-/

namespace TreeLint

namespace DiscardedResult

variable {settings : DiscardedResult} {tree : Tree} {types : TypeTable} {rules : List Rule}

/-- The diagnostics of the rule with these `settings` in a scan are its findings at the nodes of the
tree. -/
theorem mem_diagnostics_iff (htree : tree.Sound)
    (hrule : settings.rule ∈ (Registry.ofList rules).rules) {diagnostic : Diagnostic} :
    diagnostic ∈ (scan tree types (.ofList rules)).diagnostics ∧ diagnostic.rule = ruleName ↔
      ∃ node description, tree.contains node = true ∧
        settings.check (.on tree types node) node = .finding description ∧
        tree.contains description.anchor = true ∧ Edit.ConflictFree description.edits ∧
        diagnostic = description.diagnostic settings.rule tree := by
  rw [scan_eq_filterMap types htree, List.mem_filterMap]
  constructor
  · rintro ⟨⟨⟨node, rule⟩, hquestion, hanswer⟩, hname⟩
    obtain ⟨hnode, hmem⟩ := (mem_questions htree).mp hquestion
    obtain ⟨description, hcheck, hanchor, hfree, rfl⟩ :=
      found_iff.mp (Evaluation.diagnostic?_eq_some_iff.mp hanswer)
    -- Names are unique in a registry, so the rule that bears the name is this one.
    obtain rfl : rule = settings.rule :=
      List.inj_on_of_nodup_map (Registry.nodup_ofList rules) hmem hrule hname
    exact ⟨node, description, hnode, hcheck, hanchor, hfree, rfl⟩
  · rintro ⟨node, description, hnode, hcheck, hanchor, hfree, rfl⟩
    refine ⟨⟨(node, settings.rule), (mem_questions htree).mpr ⟨hnode, hrule⟩, ?_⟩, rfl⟩
    exact Evaluation.diagnostic?_eq_some_iff.mpr
      (found_iff.mpr ⟨description, hcheck, hanchor, hfree, rfl⟩)

/-- A diagnostic of the rule is anchored at a `Flagged` call, and its fix is the `assignment` or the
`deletion`. -/
theorem exists_flagged_of_mem_diagnostics (htree : tree.Sound)
    (hrule : settings.rule ∈ (Registry.ofList rules).rules) {diagnostic : Diagnostic}
    (hmem : diagnostic ∈ (scan tree types (.ofList rules)).diagnostics)
    (hname : diagnostic.rule = ruleName) :
    ∃ callee statement owner,
      Flagged settings tree types diagnostic.anchor callee statement owner ∧
      ((∃ root, tree.Chain callee (.receiver root) ∧ Target settings tree types owner root ∧
        diagnostic =
          (assignment tree diagnostic.anchor root).diagnostic settings.rule tree) ∨
      ((∀ root, tree.Chain callee (.receiver root) → ¬ Target settings tree types owner root) ∧
        diagnostic =
          (deletion tree diagnostic.anchor statement).diagnostic settings.rule tree)) := by
  obtain ⟨node, description, hnode, hcheck, -, -, rfl⟩ :=
    (mem_diagnostics_iff htree hrule).mp ⟨hmem, hname⟩
  have hparent := Visit.parent?_on types htree hnode
  have hflagged : ∃ callee statement owner,
      Flagged settings tree types node callee statement owner := by
    by_contra hnone
    rw [(check_eq_noMatch_iff (.on tree types node) htree hparent).mpr hnone] at hcheck
    cases hcheck
  obtain ⟨callee, statement, owner, h⟩ := hflagged
  obtain ⟨stop, hchain, hend⟩ :=
    check_eq_of_flagged (.on tree types node) htree hparent h
  rcases hend with ⟨place, detail, -, he⟩ | ⟨root, rfl, htarget, he⟩ | ⟨-, hroot, he⟩
  -- A violation is no finding.
  · rw [hcheck] at he
    cases he
  · cases hcheck.symm.trans he
    exact ⟨callee, statement, owner, h, .inl ⟨root, hchain, htarget, rfl⟩⟩
  · cases hcheck.symm.trans he
    exact ⟨callee, statement, owner, h,
      .inr ⟨fun root hchain' => hroot root (hchain.unique hchain'), rfl⟩⟩

/-- A `diagnostic` of the rule that deletes a `range` deletes the `statement` around the call that
it is anchored at, and nothing else. That call is `Flagged`: of a method of a configured type, which
the method returns. Its chain starts at nothing that could hold the result, at no `Target`. -/
theorem flagged_of_deletion (tree : Tree) (types : TypeTable) (settings : DiscardedResult)
    (rules : List Rule) (hfinished : tree.Finished)
    (hrule : settings.rule ∈ (Registry.ofList rules).rules) (diagnostic : Diagnostic)
    (hmem : diagnostic ∈ (scan tree types (.ofList rules)).diagnostics)
    (hname : diagnostic.rule = ruleName) (range : Span)
    (hdelete : .delete range ∈ diagnostic.fix.edits) :
    ∃ callee statement owner,
      Flagged settings tree types diagnostic.anchor callee statement owner ∧
      diagnostic.fix.edits = [.delete range] ∧ range = tree.range statement ∧
      ∀ root, tree.Chain callee (.receiver root) → ¬ Target settings tree types owner root := by
  obtain ⟨callee, statement, owner, h, ⟨root, -, -, heq⟩ | ⟨hroot, heq⟩⟩ :=
    exists_flagged_of_mem_diagnostics hfinished.sound hrule hmem hname
  · rw [heq] at hdelete
    simp [Description.diagnostic, assignment, sortEdits] at hdelete
  · refine ⟨callee, statement, owner, h, ?_⟩
    rw [heq] at hdelete ⊢
    simp only [Description.diagnostic, deletion, sortEdits, List.mergeSort_singleton,
      List.mem_singleton, Edit.delete.injEq] at hdelete ⊢
    exact ⟨by rw [hdelete], hdelete, hroot⟩

/-- The finding at the outer call `⟨2⟩` of `builderTree`. -/
theorem mem_diagnostics_builderTree :
    (deletion builderTree ⟨2⟩ ⟨1⟩).diagnostic default.rule builderTree ∈
      (scan builderTree builderTypes (.ofList [default.rule])).diagnostics := by
  have htree := finished_builderTree.sound
  have hparent : ∀ x, (Visit.on builderTree builderTypes ⟨2⟩).parent? x = builderTree.parent? x :=
    Visit.parent?_on builderTypes htree (by decide)
  obtain ⟨stop, hchain, hend⟩ := check_eq_of_flagged
    (.on builderTree builderTypes ⟨2⟩) htree hparent flagged_builderTree
  obtain rfl := chain_builderTree.unique hchain
  rcases hend with ⟨_, _, ⟨⟩, -⟩ | ⟨_, ⟨⟩, htarget, -⟩ | ⟨-, -, he⟩
  · exact (not_target_builderTree htarget).elim
  · exact ((mem_diagnostics_iff htree (List.mem_singleton_self _)).mpr
      ⟨⟨2⟩, _, by decide, he, by decide, List.pairwise_singleton _ _, rfl⟩).1

theorem flagged_of_deletion_builderTree :
    builderTree.Finished ∧
      ∃ diagnostic ∈ (scan builderTree builderTypes (.ofList [default.rule])).diagnostics,
        diagnostic.rule = ruleName ∧ .delete ⟨0, 30⟩ ∈ diagnostic.fix.edits ∧
        ∃ callee statement owner,
          Flagged default builderTree builderTypes diagnostic.anchor callee statement owner ∧
          diagnostic.fix.edits = [.delete ⟨0, 30⟩] ∧ ⟨0, 30⟩ = builderTree.range statement := by
  have hdelete : .delete ⟨0, 30⟩ ∈
      ((deletion builderTree ⟨2⟩ ⟨1⟩).diagnostic default.rule builderTree).fix.edits := by
    simp [Description.diagnostic, deletion, sortEdits, Tree.range, Tree.node?, builderTree]
  refine ⟨finished_builderTree, _, mem_diagnostics_builderTree, rfl, hdelete, ?_⟩
  obtain ⟨callee, statement, owner, h, hedits, hrange, -⟩ :=
    flagged_of_deletion builderTree builderTypes default [default.rule] finished_builderTree
      (List.mem_singleton_self _) _ mem_diagnostics_builderTree rfl ⟨0, 30⟩ hdelete
  exact ⟨callee, statement, owner, h, hedits, hrange⟩

/-- The calls in a deleted statement need not all be of configured types: in `builderTree`, along
with the trimming of a string goes the call that makes a string builder reverse itself. -/
theorem not_all_calls_configured :
    ¬ ∀ (tree : Tree) (types : TypeTable) (settings : DiscardedResult), tree.Finished →
      ∀ diagnostic ∈ (scan tree types (.ofList [settings.rule])).diagnostics,
      ∀ statement, .delete (tree.range statement) ∈ diagnostic.fix.edits →
        tree.parent? diagnostic.anchor = some statement →
      ∀ call ∈ tree.descendants statement, tree.isCall call = true →
        ∃ callee owner name, tree.callee? call = some callee ∧
          types.ownerOf? callee = some owner ∧ types.typeName? owner = some name ∧
          name ∈ settings.types := by
  intro hall
  have hdelete : .delete (builderTree.range ⟨1⟩) ∈
      ((deletion builderTree ⟨2⟩ ⟨1⟩).diagnostic default.rule builderTree).fix.edits := by
    simp [Description.diagnostic, deletion, sortEdits]
  obtain ⟨callee, owner, name, hcallee, howner, hname, hmem⟩ :=
    hall builderTree builderTypes default finished_builderTree _ mem_diagnostics_builderTree ⟨1⟩
      hdelete rfl ⟨6⟩ (by decide) rfl
  cases hcallee
  cases howner
  cases hname
  revert hmem
  decide

end DiscardedResult

end TreeLint
