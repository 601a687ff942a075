import TreeLint.Proofs.Edit.Order
import TreeLint.Proofs.Rule.Registry
import TreeLint.Proofs.Scan.Visits

/-!
# Rules do not disturb each other

What a scan reports is told question by question: each gives a diagnostic, a failure or nothing, and
the report has them in the order of the questions.

- `found_iff`, `failed_iff`, `nothing_iff`: what comes of one question.
- `scan_eq_filterMap`: a report is what comes of the questions.
- `filter_questions`: the questions to one rule are those of a scan with this rule alone.
- `pairwise_questions`: questions are in order of the nodes, then of the rules.
- `scan_isolated`: the report of a scan, rule by rule and question by question.
-/

namespace TreeLint

open Edit

variable {tree : Tree} {registry : Registry} {visit : Visit} {node : NodeId} {rule : Rule}

/-! ## One question -/

/-- The diagnostic of a finding `d` of `rule` of which nothing is wrong. -/
def Description.diagnostic (rule : Rule) (tree : Tree) (d : Description) : Diagnostic :=
  { code := rule.code, rule := rule.name, severity := rule.severity, anchor := d.anchor,
    location := .ofSpan tree (tree.range d.anchor), message := d.message, help := d.help,
    fix := ⟨sortEdits d.edits⟩ }

/-- The failure of `rule` at `node`. -/
def Rule.failureAt (rule : Rule) (tree : Tree) (node : NodeId) (reason : FailureReason) :
    RuleFailure :=
  { rule := rule.name, node, location := .ofSpan tree (tree.range node), reason }

/-- Why a rule leaves a failure after a verdict: the `FailureReason` that is reported. -/
inductive Verdict.Fault (tree : Tree) : Verdict → FailureReason → Prop
  | violation (place : NodeId) (detail : String) :
      Fault tree (.violation place detail) (.invariant s!"{detail} at {place}")
  | breakdown (detail : String) : Fault tree (.breakdown detail) (.breakdown detail)
  /-- The node `d.anchor` at fault is not in the tree. -/
  | anchor {d : Description} (hanchor : tree.contains d.anchor = false) :
      Fault tree (.finding d) (.invariant s!"anchor {d.anchor} is not part of the tree")
  /-- The proposed edits, `d.edits`, conflict. -/
  | edits {d : Description} {e : EditError} (hanchor : tree.contains d.anchor = true)
      (hedits : ¬ ConflictFree d.edits) (herror : Fix.ofEdits d.edits = .error e) :
      Fault tree (.finding d) (.invariant s!"invalid fix: {e.message}")

/-- A `verdict` has one fault, so one `reason`. -/
theorem Verdict.Fault.unique {verdict : Verdict} {reason reason' : FailureReason}
    (h : verdict.Fault tree reason) (h' : verdict.Fault tree reason') : reason = reason' := by
  cases h with
  | violation => cases h'; rfl
  | breakdown => cases h'; rfl
  | anchor hanchor =>
    cases h' with
    | anchor => rfl
    | edits hanchor' => simp [hanchor] at hanchor'
  | edits hanchor _ herror =>
    cases h' with
    | anchor hanchor' => simp [hanchor] at hanchor'
    | edits _ _ herror' =>
      rw [herror, Except.error.injEq] at herror'
      rw [herror']

/-- A finding `d` with a fault has no diagnostic. -/
theorem Verdict.Fault.not_sound {d : Description} {reason : FailureReason}
    (h : Verdict.Fault tree (.finding d) reason) :
    ¬ (tree.contains d.anchor = true ∧ ConflictFree d.edits) := by
  rintro ⟨hcontains, hfree⟩
  cases h with
  | anchor hanchor => simp [hcontains] at hanchor
  | edits _ hedits => exact hedits hfree

theorem toDiagnostic_cases (rule : Rule) (tree : Tree) (d : Description) :
    (tree.contains d.anchor = true ∧ ConflictFree d.edits ∧
      d.toDiagnostic rule tree = .ok (d.diagnostic rule tree)) ∨
    ∃ detail, Verdict.Fault tree (.finding d) (.invariant detail) ∧
      d.toDiagnostic rule tree = .error detail := by
  unfold Description.toDiagnostic
  cases hnode : tree.node? d.anchor with
  | none =>
    have hnot : tree.contains d.anchor = false := by
      simpa [Tree.contains, Tree.node?] using hnode
    exact .inr ⟨_, .anchor hnot, rfl⟩
  | some anchor =>
    have hcontains : tree.contains d.anchor = true := by
      rw [Tree.contains, decide_eq_true_eq]
      exact (Array.getElem?_eq_some_iff.mp hnode).1
    cases hfix : Fix.ofEdits d.edits with
    | error e =>
      have hconflict : ¬ ConflictFree d.edits := fun hfree => by
        rw [Fix.ofEdits_eq_ok_iff.mpr ⟨hfree, rfl⟩] at hfix
        cases hfix
      exact .inr ⟨_, .edits hcontains hconflict hfix, rfl⟩
    | ok fix =>
      obtain ⟨hfree, hedits⟩ := Fix.ofEdits_eq_ok_iff.mp hfix
      obtain ⟨edits⟩ := fix
      obtain rfl : edits = sortEdits d.edits := hedits
      have hrange : tree.range d.anchor = anchor.range := by simp [Tree.range, hnode]
      exact .inl ⟨hcontains, hfree, by rw [Description.diagnostic, hrange]⟩

/-- A question gives nothing after `noMatch`, a diagnostic after a finding `d` without a fault, and
a failure at `node` after any verdict with one. -/
theorem evaluate_cases (visit : Visit) (node : NodeId) (rule : Rule) :
    (rule.check visit node = .noMatch ∧ evaluate visit node rule = .nothing) ∨
    (∃ d, rule.check visit node = .finding d ∧ visit.tree.contains d.anchor = true ∧
      ConflictFree d.edits ∧ evaluate visit node rule = .found (d.diagnostic rule visit.tree)) ∨
    ∃ reason, (rule.check visit node).Fault visit.tree reason ∧
      evaluate visit node rule = .failed (rule.failureAt visit.tree node reason) := by
  unfold evaluate
  cases hcheck : rule.check visit node with
  | noMatch => exact .inl ⟨rfl, rfl⟩
  | finding d =>
    rcases toDiagnostic_cases rule visit.tree d with ⟨hcontains, hfree, hok⟩ | ⟨detail, hfault, he⟩
    · exact .inr (.inl ⟨d, rfl, hcontains, hfree, by simp [hok]⟩)
    · exact .inr (.inr ⟨_, hfault, by simp [he, Rule.failureAt]⟩)
  | violation place detail => exact .inr (.inr ⟨_, .violation place detail, rfl⟩)
  | breakdown detail => exact .inr (.inr ⟨_, .breakdown detail, rfl⟩)

theorem nothing_iff : evaluate visit node rule = .nothing ↔ rule.check visit node = .noMatch := by
  rcases evaluate_cases visit node rule with ⟨hcheck, he⟩ | ⟨d, hcheck, -, -, he⟩ | ⟨_, hfault, he⟩
  · simp [hcheck, he]
  · simp [hcheck, he]
  · rw [he]
    constructor
    · rintro ⟨⟩
    · intro hcheck
      rw [hcheck] at hfault
      cases hfault

theorem found_iff {diagnostic : Diagnostic} : evaluate visit node rule = .found diagnostic ↔
    ∃ d, rule.check visit node = .finding d ∧ visit.tree.contains d.anchor = true ∧
      ConflictFree d.edits ∧ diagnostic = d.diagnostic rule visit.tree := by
  rcases evaluate_cases visit node rule with
    ⟨hcheck, he⟩ | ⟨d, hcheck, hcontains, hfree, he⟩ | ⟨_, hfault, he⟩
  · simp [hcheck, he]
  · rw [he, Evaluation.found.injEq]
    constructor
    · rintro rfl
      exact ⟨d, hcheck, hcontains, hfree, rfl⟩
    · rintro ⟨d', hcheck', -, -, rfl⟩
      cases hcheck.symm.trans hcheck'
      rfl
  · rw [he]
    constructor
    · rintro ⟨⟩
    · rintro ⟨d, hcheck, hcontains, hfree, -⟩
      rw [hcheck] at hfault
      exact (hfault.not_sound ⟨hcontains, hfree⟩).elim

theorem failed_iff {failure : RuleFailure} : evaluate visit node rule = .failed failure ↔
    ∃ reason, (rule.check visit node).Fault visit.tree reason ∧
      failure = rule.failureAt visit.tree node reason := by
  rcases evaluate_cases visit node rule with
    ⟨hcheck, he⟩ | ⟨d, hcheck, hcontains, hfree, he⟩ | ⟨reason, hfault, he⟩
  · rw [he]
    constructor
    · rintro ⟨⟩
    · rintro ⟨reason, hfault, -⟩
      rw [hcheck] at hfault
      cases hfault
  · rw [he]
    constructor
    · rintro ⟨⟩
    · rintro ⟨reason, hfault, -⟩
      rw [hcheck] at hfault
      exact (hfault.not_sound ⟨hcontains, hfree⟩).elim
  · rw [he, Evaluation.failed.injEq]
    constructor
    · rintro rfl
      exact ⟨reason, hfault, rfl⟩
    · rintro ⟨reason', hfault', rfl⟩
      rw [hfault.unique hfault']

/-! ## The report -/

/-- What comes of a `question` of a scan. -/
def answer (tree : Tree) (types : TypeTable) (question : NodeId × Rule) : Evaluation :=
  evaluate (.on tree types question.1) question.1 question.2

theorem Evaluation.diagnostic?_eq_some_iff {evaluation : Evaluation} {diagnostic : Diagnostic} :
    evaluation.diagnostic? = some diagnostic ↔ evaluation = .found diagnostic := by
  cases evaluation <;> simp [Evaluation.diagnostic?]

theorem Evaluation.failure?_eq_some_iff {evaluation : Evaluation} {failure : RuleFailure} :
    evaluation.failure? = some failure ↔ evaluation = .failed failure := by
  cases evaluation <;> simp [Evaluation.failure?]

theorem foldl_record (evaluations : List Evaluation) (report : ScanReport) :
    evaluations.foldl ScanReport.record report =
      ⟨report.diagnostics ++ evaluations.filterMap Evaluation.diagnostic?,
        report.failures ++ evaluations.filterMap Evaluation.failure?⟩ := by
  induction evaluations generalizing report with
  | nil => simp
  | cons evaluation evaluations ih =>
    rw [List.foldl_cons, ih]
    cases evaluation <;>
      simp [ScanReport.record, List.filterMap_cons, Evaluation.diagnostic?, Evaluation.failure?]

/-- A report is what comes of the `questions`, in their order. -/
theorem scan_eq_filterMap (types : TypeTable) (htree : tree.Sound) (registry : Registry) :
    scan tree types registry =
      ⟨(questions tree registry).filterMap fun q => (answer tree types q).diagnostic?,
        (questions tree registry).filterMap fun q => (answer tree types q).failure?⟩ := by
  have hfold := foldl_record ((questions tree registry).map (answer tree types)) {}
  rw [List.foldl_map, List.filterMap_map, List.filterMap_map, List.nil_append,
    List.nil_append] at hfold
  rw [scan_eq_foldl types htree]
  exact hfold

theorem mem_questions (htree : tree.Sound) :
    (node, rule) ∈ questions tree registry ↔
      tree.contains node = true ∧ rule ∈ registry.rules := by
  have hmem : node ∈ tree.descendants tree.root ↔ tree.contains node = true :=
    ⟨htree.contains_of_mem_descendants htree.contains_root node, htree.mem_descendants_root⟩
  simp [questions, hmem]

/-! ## Order -/

/-- The question `p` comes before `q` when its node does, or for one node when its rule does. -/
def AskedBefore (tree : Tree) (registry : Registry) (p q : NodeId × Rule) : Prop :=
  (tree.descendants tree.root).idxOf p.1 < (tree.descendants tree.root).idxOf q.1 ∨
    p.1 = q.1 ∧ (registry.rules.map Rule.name).idxOf p.2.name <
      (registry.rules.map Rule.name).idxOf q.2.name

theorem pairwise_idxOf_lt {α : Type} [BEq α] [LawfulBEq α] {l : List α} (h : l.Nodup) :
    l.Pairwise fun a b => l.idxOf a < l.idxOf b := by
  rw [List.pairwise_iff_getElem]
  intro i j hi hj hij
  rwa [h.idxOf_getElem, h.idxOf_getElem]

theorem pairwise_questions (htree : tree.Sound)
    (hnames : (registry.rules.map Rule.name).Nodup) :
    (questions tree registry).Pairwise (AskedBefore tree registry) := by
  rw [questions, List.pairwise_flatMap]
  constructor
  · intro node _
    rw [List.pairwise_map]
    exact (List.pairwise_map.mp (pairwise_idxOf_lt hnames)).imp fun hlt => .inr ⟨rfl, hlt⟩
  · refine (pairwise_idxOf_lt (htree.nodup_descendants htree.contains_root)).imp ?_
    intro a b hlt p hp q hq
    obtain ⟨_, -, rfl⟩ := List.mem_map.mp hp
    obtain ⟨_, -, rfl⟩ := List.mem_map.mp hq
    exact .inl hlt

/-! ## One rule among others -/

theorem filter_name_eq {rules : List Rule} (hnames : (rules.map Rule.name).Nodup)
    (hrule : rule ∈ rules) : rules.filter (fun r => r.name = rule.name) = [rule] := by
  induction rules with
  | nil => cases hrule
  | cons first rest ih =>
    rw [List.map_cons, List.nodup_cons] at hnames
    rcases List.mem_cons.mp hrule with rfl | hrest
    · have hnone : rest.filter (fun r => r.name = rule.name) = [] := by
        rw [List.filter_eq_nil_iff]
        intro r hr heq
        rw [decide_eq_true_eq] at heq
        exact hnames.1 (heq ▸ List.mem_map_of_mem hr)
      simp [hnone]
    · have hne : first.name ≠ rule.name := fun heq =>
        hnames.1 (heq ▸ List.mem_map_of_mem hrest)
      rw [List.filter_cons_of_neg (by simpa using hne), ih hnames.2 hrest]

/-- The questions to `rule` are those of a registry that has no other. -/
theorem filter_questions (hnames : (registry.rules.map Rule.name).Nodup)
    (hrule : rule ∈ registry.rules) :
    (questions tree registry).filter (fun q => q.2.name = rule.name) =
      questions tree ⟨[rule]⟩ := by
  rw [questions, questions, List.filter_flatMap]
  refine List.flatMap_congr fun node _ => ?_
  rw [List.filter_map]
  exact congrArg (List.map (node, ·)) (filter_name_eq hnames hrule)

/-- What `pick` takes from the answers and bears the name of `rule` is what it takes from the
answers of that rule. -/
theorem filter_answers {α : Type} (types : TypeTable) (pick : Evaluation → Option α)
    (name : α → String) (hname : ∀ q x, pick (answer tree types q) = some x → name x = q.2.name)
    (hnames : (registry.rules.map Rule.name).Nodup) (hrule : rule ∈ registry.rules) :
    ((questions tree registry).filterMap fun q => pick (answer tree types q)).filter
        (fun x => name x = rule.name) =
      (questions tree ⟨[rule]⟩).filterMap fun q => pick (answer tree types q) := by
  rw [← filter_questions hnames hrule, List.filterMap_filter, List.filter_filterMap]
  refine List.filterMap_congr fun q _ => ?_
  cases hpick : pick (answer tree types q) with
  | none => simp
  | some x => simp [Option.filter, hname q x hpick]

/-- **Rules do not disturb each other.** The `report` of a scan is made of one `answer` to each
question, in order of the nodes and of the rules at each (`AskedBefore`). An answer is a diagnostic
after a finding with an anchor in `tree` and edits without conflict, a failure at `node` after any
other verdict but `noMatch`, and nothing after that. What bears the name of a `rule` is what a scan
with that rule alone reports. -/
theorem scan_isolated (tree : Tree) (types : TypeTable) (rules : List Rule)
    (hfinished : tree.Finished) :
    let registry := Registry.ofList rules
    let report := scan tree types registry
    (∀ rule ∈ registry.rules,
      report.diagnostics.filter (fun d => d.rule = rule.name) =
        (scan tree types (.ofList [rule])).diagnostics ∧
      report.failures.filter (fun f => f.rule = rule.name) =
        (scan tree types (.ofList [rule])).failures) ∧
    report.diagnostics =
      ((questions tree registry).filterMap fun q => (answer tree types q).diagnostic?) ∧
    report.failures =
      ((questions tree registry).filterMap fun q => (answer tree types q).failure?) ∧
    (∀ node rule, (node, rule) ∈ questions tree registry ↔
      tree.contains node = true ∧ rule ∈ registry.rules) ∧
    (questions tree registry).Pairwise (AskedBefore tree registry) ∧
    (∀ (node : NodeId) (rule : Rule),
      let verdict := rule.check (.on tree types node) node
      (answer tree types (node, rule) = .nothing ↔ verdict = .noMatch) ∧
      (∀ diagnostic, answer tree types (node, rule) = .found diagnostic ↔
        ∃ d, verdict = .finding d ∧ tree.contains d.anchor = true ∧ ConflictFree d.edits ∧
          diagnostic = d.diagnostic rule tree) ∧
      ∀ failure, answer tree types (node, rule) = .failed failure ↔
        ∃ reason, verdict.Fault tree reason ∧ failure = rule.failureAt tree node reason) ∧
    ∀ diagnostic ∈ report.diagnostics,
      (diagnostic.fix.edits.Pairwise fun a b => a.span.Precedes b.span) ∧
        ConflictFree diagnostic.fix.edits := by
  intro registry report
  have htree := hfinished.sound
  have hnames : (registry.rules.map Rule.name).Nodup := Registry.nodup_ofList rules
  have hreport : report = _ := scan_eq_filterMap types htree registry
  refine ⟨fun rule hrule => ?_, by rw [hreport], by rw [hreport],
    fun node rule => mem_questions htree, pairwise_questions htree hnames,
    fun node rule => ⟨nothing_iff, fun _ => found_iff, fun _ => failed_iff⟩, ?_⟩
  -- The questions to one rule are those of a scan with it alone, and so are their answers.
  · have halone : Registry.ofList [rule] = ⟨[rule]⟩ :=
      Registry.ofList_eq_of_nodup (List.nodup_singleton _)
    rw [hreport, halone, scan_eq_filterMap types htree]
    constructor
    · refine filter_answers types Evaluation.diagnostic? Diagnostic.rule ?_ hnames hrule
      intro q diagnostic hq
      obtain ⟨d, -, -, -, rfl⟩ := found_iff.mp (Evaluation.diagnostic?_eq_some_iff.mp hq)
      rfl
    · refine filter_answers types Evaluation.failure? RuleFailure.rule ?_ hnames hrule
      intro q failure hq
      obtain ⟨_, -, rfl⟩ := failed_iff.mp (Evaluation.failure?_eq_some_iff.mp hq)
      rfl
  · intro diagnostic hmem
    rw [hreport] at hmem
    obtain ⟨q, -, hq⟩ := List.mem_filterMap.mp hmem
    obtain ⟨d, -, -, hfree, rfl⟩ := found_iff.mp (Evaluation.diagnostic?_eq_some_iff.mp hq)
    exact ⟨(before_sortEdits hfree).imp Before.precedes, hfree.perm (sortEdits_perm d.edits).symm⟩

/-- A rule flags statements while another breaks down at every node. -/
theorem scan_isolated_blockTree :
    let broken : Rule :=
      { name := "broken", code := "B1", check := fun _ _ => .breakdown "out of luck" }
    let flag : Rule :=
      { name := "flag", code := "F1", check := fun visit node =>
        if visit.parent? node = none then .noMatch else .finding { anchor := node, message := "" } }
    let report := scan blockTree {} (.ofList [broken, flag])
    blockTree.Finished ∧
      report.diagnostics.filter (fun d => d.rule = "flag") =
        (scan blockTree {} (.ofList [flag])).diagnostics ∧
      (report.failures.filter (fun f => f.rule = "broken")).map RuleFailure.node =
        [⟨0⟩, ⟨1⟩, ⟨2⟩] := by
  intro broken flag report
  obtain ⟨halone, -⟩ := scan_isolated blockTree {} [broken, flag] finished_blockTree
  have hbroken := (halone broken (.head _)).2
  have hflag := (halone flag (.tail _ (.head _))).1
  exact ⟨finished_blockTree, hflag, (congrArg (List.map RuleFailure.node) hbroken).trans rfl⟩

end TreeLint
