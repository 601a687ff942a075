import TreeLint.Proofs.Rule.Renumbering
import TreeLint.Proofs.Scan.Isolation

/-!
# Scans of trees that look alike

Two runs over trees that look alike ask the same questions in the same order, and get the same
answers but for the numbers of nodes in them.

- `evaluate_renumbered`: one question in two runs. `scan_renumbered`: all questions.
- `scan_eq_of_alike`: where no number changes, the reports are equal.
-/

namespace TreeLint

variable {σ : NodeId ≃ NodeId} {τ : TypeId ≃ TypeId} {tree tree' : Tree} {types types' : TypeTable}
variable {registry : Registry}

/-- The diagnostic `d` with `σ` applied to its anchor. -/
def Diagnostic.renumber (σ : NodeId ≃ NodeId) (d : Diagnostic) : Diagnostic :=
  { d with anchor := σ d.anchor }

@[simp] theorem Diagnostic.anchor_renumber (d : Diagnostic) : (d.renumber σ).anchor = σ d.anchor :=
  rfl

@[simp] theorem Diagnostic.rule_renumber (d : Diagnostic) : (d.renumber σ).rule = d.rule := rfl

@[simp] theorem Diagnostic.location_renumber (d : Diagnostic) :
    (d.renumber σ).location = d.location := rfl

/-- The failures `f` and `f'` are equal but for the numbers of nodes, also in the text of the
reason. -/
structure RuleFailure.Renumbered (σ : NodeId ≃ NodeId) (f f' : RuleFailure) : Prop where
  rule : f'.rule = f.rule
  node : f'.node = σ f.node
  location : f'.location = f.location
  reason : ∃ (detail : String) (place : NodeId), f.reason = .invariant s!"{detail} at {place}" ∧
    f'.reason = .invariant s!"{detail} at {σ place}"

theorem RuleFailure.Renumbered.eq_of_refl {f f' : RuleFailure}
    (h : f.Renumbered (Equiv.refl NodeId) f') : f' = f := by
  obtain ⟨detail, place, hreason, hreason'⟩ := h.reason
  obtain ⟨rule, node, location, reason⟩ := f
  obtain ⟨rule', node', location', reason'⟩ := f'
  obtain rfl : rule' = rule := h.rule
  obtain rfl : node' = node := h.node
  obtain rfl : location' = location := h.location
  obtain rfl : reason = _ := hreason
  obtain rfl : reason' = _ := hreason'
  rfl

/-! ## Scans -/

/-- What comes of a question in two runs: the same, but for the numbers that `σ` changes. -/
inductive Evaluation.Renumbered (σ : NodeId ≃ NodeId) : Evaluation → Evaluation → Prop
  | nothing : Renumbered σ .nothing .nothing
  | found (d : Diagnostic) : Renumbered σ (.found d) (.found (d.renumber σ))
  | failed {f f' : RuleFailure} (h : f.Renumbered σ f') : Renumbered σ (.failed f) (.failed f')

theorem Tree.Alike.location (h : tree.Alike σ tree') (span : Span) :
    Location.ofSpan tree' span = Location.ofSpan tree span := by
  rw [Location.ofSpan, Location.ofSpan, Tree.lineColumn, Tree.lineColumn, h.source, h.path]

theorem Tree.Alike.diagnostic (h : tree.Alike σ tree') (rule : Rule) (d : Description) :
    (d.renumber σ).diagnostic rule tree' = (d.diagnostic rule tree).renumber σ := by
  rw [Description.diagnostic, Description.renumber, h.range, h.location]
  rfl

/-- The rule with these `settings` is asked the same question in two runs, at `node` and at
`σ node`. -/
theorem evaluate_renumbered (settings : DiscardedResult) {visit visit' : Visit}
    (h : Visit.Alike σ τ visit visit') {node : NodeId}
    (hnode : visit.tree.contains node = true) :
    (evaluate visit node settings.rule).Renumbered σ (evaluate visit' (σ node) settings.rule) := by
  have hcheck : settings.rule.check visit' (σ node) =
      (settings.rule.check visit node).renumber σ := settings.check_renumbered h hnode
  rcases settings.check_cases visit node with hverdict | ⟨d, hverdict, hanchor, e, hedit⟩ |
    ⟨place, detail, hverdict⟩
  · replace hverdict : settings.rule.check visit node = .noMatch := hverdict
    rw [hverdict] at hcheck
    rw [nothing_iff.mpr hverdict, nothing_iff.mpr hcheck]
    exact .nothing
  · replace hverdict : settings.rule.check visit node = .finding d := hverdict
    -- One edit cannot conflict, so the finding is no fault in either run.
    have hfree : Edit.ConflictFree d.edits := hedit ▸ List.pairwise_singleton _ e
    have hcontains : visit'.tree.contains (σ d.anchor) = true := by
      rw [h.tree.contains, hanchor, hnode]
    rw [hverdict] at hcheck
    rw [found_iff.mpr ⟨d, hverdict, by rw [hanchor, hnode], hfree, rfl⟩,
      found_iff.mpr ⟨d.renumber σ, hcheck, hcontains, hfree, rfl⟩, h.tree.diagnostic]
    exact .found _
  · replace hverdict : settings.rule.check visit node = .violation place detail := hverdict
    rw [hverdict] at hcheck
    have hfault : (settings.rule.check visit node).Fault visit.tree
        (.invariant s!"{detail} at {place}") := hverdict ▸ .violation place detail
    have hfault' : (settings.rule.check visit' (σ node)).Fault visit'.tree
        (.invariant s!"{detail} at {σ place}") := hcheck ▸ .violation (σ place) detail
    rw [failed_iff.mpr ⟨_, hfault, rfl⟩, failed_iff.mpr ⟨_, hfault', rfl⟩]
    refine .failed ⟨rfl, rfl, ?_, detail, place, rfl, rfl⟩
    rw [Rule.failureAt, Rule.failureAt, h.tree.range, h.tree.location]

/-- What comes of `questions` in two runs, `first` and `second`, taken together. -/
theorem filterMap_renumbered {α : Type} {first second : α → Evaluation} {questions : List α}
    (h : ∀ q ∈ questions, (first q).Renumbered σ (second q)) :
    (questions.filterMap fun q => (second q).diagnostic?) =
        (questions.filterMap fun q => (first q).diagnostic?).map (Diagnostic.renumber σ) ∧
      List.Forall₂ (RuleFailure.Renumbered σ) (questions.filterMap fun q => (first q).failure?)
        (questions.filterMap fun q => (second q).failure?) := by
  induction questions with
  | nil => exact ⟨rfl, .nil⟩
  | cons q questions ih =>
    obtain ⟨hq, hrest⟩ := List.forall_mem_cons.mp h
    obtain ⟨hdiagnostics, hfailures⟩ := ih hrest
    rw [List.filterMap_cons, List.filterMap_cons, List.filterMap_cons, List.filterMap_cons]
    generalize first q = here at hq ⊢
    generalize second q = there at hq ⊢
    cases hq with
    | nothing => exact ⟨hdiagnostics, hfailures⟩
    | found d => exact ⟨congrArg (d.renumber σ :: ·) hdiagnostics, hfailures⟩
    | failed hf => exact ⟨hdiagnostics, .cons hf hfailures⟩

/-- Scans of `tree` and of `tree'`, which look alike, report alike. -/
theorem scan_renumbered (htree : tree.Sound) (h : tree.Alike σ tree')
    (htypes : types.Renumbered tree σ τ types')
    (hrules : ∀ rule ∈ registry.rules, ∃ settings : DiscardedResult, rule = settings.rule) :
    (scan tree' types' registry).diagnostics =
        (scan tree types registry).diagnostics.map (Diagnostic.renumber σ) ∧
      List.Forall₂ (RuleFailure.Renumbered σ) (scan tree types registry).failures
        (scan tree' types' registry).failures := by
  have hquestions : questions tree' registry =
      (questions tree registry).map fun q => (σ q.1, q.2) := by
    rw [questions, questions, h.root, h.descendants, List.flatMap_map, List.map_flatMap]
    simp only [List.map_map, Function.comp_def]
  rw [scan_eq_filterMap types htree, scan_eq_filterMap types' (h.sound htree), hquestions,
    List.filterMap_map, List.filterMap_map]
  refine filterMap_renumbered fun q hq => ?_
  obtain ⟨hnode, hrule⟩ := (mem_questions htree).mp hq
  obtain ⟨settings, hsettings⟩ := hrules q.2 hrule
  rw [answer, answer, hsettings]
  exact evaluate_renumbered settings (Visit.alike_on htree h htypes hnode) hnode

/-- Scans of trees that look alike under the same numbers (`Equiv.refl`) give the same report. -/
theorem scan_eq_of_alike (htree : tree.Sound) (h : tree.Alike (Equiv.refl NodeId) tree')
    (types : TypeTable)
    (hrules : ∀ rule ∈ registry.rules, ∃ settings : DiscardedResult, rule = settings.rule) :
    scan tree' types registry = scan tree types registry := by
  obtain ⟨hdiagnostics, hfailures⟩ := scan_renumbered htree h (.refl tree types) hrules
  have hsame : Diagnostic.renumber (Equiv.refl NodeId) = id := rfl
  rw [hsame, List.map_id] at hdiagnostics
  have heq : (scan tree types registry).failures = (scan tree' types registry).failures :=
    List.forall₂_eq_eq_eq ▸ hfailures.imp fun _ _ hf => hf.eq_of_refl.symm
  generalize scan tree' types registry = report at hdiagnostics heq
  obtain ⟨diagnostics, failures⟩ := report
  obtain rfl : diagnostics = _ := hdiagnostics
  obtain rfl : _ = failures := heq
  rfl

end TreeLint
