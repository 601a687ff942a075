import Mathlib
import TreeLint.Analysis.Report
import TreeLint.Proofs.Scan.Isolation
import TreeLint.Proofs.Suppress.Naming

/-!
# Which rule decides about a diagnostic

A diagnostic bears the name of the rule that found it, and is judged by the rule that the registry
finds under that name. The two are one unless an earlier rule has the name for its code or for a
further key.

- `Rule.Treats`: what the identity of a rule makes of a diagnostic. There is one such judgement.
- `judge_treats`: a judgement is the one of the rule found under the name.
- `treated_by_own_rule`: when every rule is found by its name, and what follows for a report.
- `not_treated_by_own_rule`: a diagnostic that another rule decides about.
-/

namespace TreeLint

variable {config : Config} {registry : Registry} {tree : Tree} {rule : Rule} {d : Diagnostic}

/-- What the identity of `rule` makes of a diagnostic: its keys are looked for on the nodes and in
the directives, its demand for a reason counts, and the severity configured under its name. -/
inductive Rule.Treats (rule : Rule) (config : Config) (tree : Tree) (d : Diagnostic) :
    Judgement → Prop
  | marked (hmark : rule.MarkedAt tree d.anchor) : Treats rule config tree d .dropped
  | excused {directive : AllowDirective} (hmark : ¬ rule.MarkedAt tree d.anchor)
      (hexcuse : rule.ExcusedAt tree.source.toList d.location.line directive)
      (hreason : rule.requiresReason = true → directive.reason ≠ none) :
      Treats rule config tree d .dropped
  | unexplained {directive : AllowDirective} (hmark : ¬ rule.MarkedAt tree d.anchor)
      (hexcuse : rule.ExcusedAt tree.source.toList d.location.line directive)
      (hrequired : rule.requiresReason = true) (hreason : directive.reason = none) :
      Treats rule config tree d (.replaced (missingReason rule d.anchor d.location))
  | kept (hmark : ¬ rule.MarkedAt tree d.anchor)
      (hexcuse : ∀ directive, ¬ rule.ExcusedAt tree.source.toList d.location.line directive) :
      Treats rule config tree d
        (.kept { d with severity := (config.severity? rule.name).getD d.severity })

/-- What `rule` makes of `d` is one judgement. -/
theorem Rule.Treats.unique {j j' : Judgement} (h : rule.Treats config tree d j)
    (h' : rule.Treats config tree d j') : j = j' := by
  cases h with
  | marked hmark =>
    cases h' with
    | marked => rfl
    | excused hmark' | unexplained hmark' | kept hmark' => exact (hmark' hmark).elim
  | excused hmark hexcuse hreason =>
    cases h' with
    | marked hmark' => exact (hmark hmark').elim
    | excused => rfl
    | unexplained _ hexcuse' hrequired hnone =>
      obtain rfl := hexcuse.unique hexcuse'
      exact (hreason hrequired hnone).elim
    | kept _ hnever => exact (hnever _ hexcuse).elim
  | unexplained hmark hexcuse hrequired hnone =>
    cases h' with
    | marked hmark' => exact (hmark hmark').elim
    | excused _ hexcuse' hreason =>
      obtain rfl := hexcuse.unique hexcuse'
      exact (hreason hrequired hnone).elim
    | unexplained => rfl
    | kept _ hnever => exact (hnever _ hexcuse).elim
  | kept hmark hnever =>
    cases h' with
    | marked hmark' => exact (hmark hmark').elim
    | excused _ hexcuse | unexplained _ hexcuse => exact (hnever _ hexcuse).elim
    | kept => rfl

/-- The judgement on `d` is that of the `rule` found under `d.rule` (`hget`). -/
theorem judge_treats (config : Config) (tree : Tree) (hget : registry.get? d.rule = some rule) :
    rule.Treats config tree d (judge config registry tree d) := by
  simp only [judge, hget]
  rcases suppression?_cases tree d rule with
    ⟨hmark, node, hs⟩ | ⟨hmark, ⟨directive, hexcuse, hs⟩ | ⟨hnever, hs⟩⟩
  · rw [hs]
    exact .marked hmark
  · rw [hs]
    dsimp only
    by_cases hwanting : directive.reason.isNone && rule.requiresReason
    · rw [if_pos hwanting]
      rw [Bool.and_eq_true, Option.isNone_iff_eq_none] at hwanting
      exact .unexplained hmark hexcuse hwanting.2 hwanting.1
    · rw [if_neg hwanting]
      rw [Bool.and_eq_true, Option.isNone_iff_eq_none] at hwanting
      exact .excused hmark hexcuse fun hrequired hnone => hwanting ⟨hnone, hrequired⟩
  · rw [hs]
    exact .kept hmark hnever

/-! ## Reports -/

/-- A diagnostic `d` of a scan is what some `rule` answered at some `node`, and bears the name and
the code of that rule. -/
theorem exists_found_of_mem {types : TypeTable} (htree : tree.Sound)
    (hd : d ∈ (scan tree types registry).diagnostics) :
    ∃ node, ∃ rule ∈ registry.rules, tree.contains node = true ∧
      answer tree types (node, rule) = .found d ∧ d.rule = rule.name ∧ d.code = rule.code := by
  rw [scan_eq_filterMap types htree] at hd
  obtain ⟨⟨node, rule⟩, hquestion, hanswer⟩ := List.mem_filterMap.mp hd
  obtain ⟨hnode, hrule⟩ := (mem_questions htree).mp hquestion
  have hfound := Evaluation.diagnostic?_eq_some_iff.mp hanswer
  obtain ⟨description, -, -, -, rfl⟩ := found_iff.mp hfound
  exact ⟨node, rule, hrule, hnode, hfound, rfl, rfl⟩

/-- Under the name of a `rule` of a registry some rule is found: itself, or another `identity`. -/
theorem Registry.exists_get?_name (hrule : rule ∈ registry.rules) :
    ∃ identity ∈ registry.rules, registry.get? rule.name = some identity := by
  cases hget : registry.get? rule.name with
  | none => simpa using List.find?_eq_none.mp hget rule hrule
  | some identity => exact ⟨identity, List.mem_of_find?_eq_some hget, rfl⟩

/-- **Every diagnostic is treated as its own rule would have it**, if no rule of `registry` answers
to the name of a later one (`Unambiguous`). That is exactly when `get?` finds every rule by its
name. In any registry, a rule is found by its name unless an `earlier` one answers to it, and then
that one, the `identity`, decides. -/
theorem treated_by_own_rule (config : Config) (rules : List Rule) (unit : SourceUnit)
    (hfinished : unit.tree.Finished) :
    let registry := Registry.ofList rules
    let report := analyzeUnit config registry unit
    (∀ rule ∈ registry.rules, registry.get? rule.name = some rule ↔
      ∀ earlier ∈ registry.rules.takeWhile (·.name ≠ rule.name),
        earlier.answersTo rule.name = false) ∧
    (registry.Unambiguous ↔ ∀ rule ∈ registry.rules, registry.get? rule.name = some rule) ∧
    ∃ judgements,
      List.Forall₂ (fun d judgement => ∃ node, ∃ rule ∈ registry.rules,
        answer unit.tree unit.types (node, rule) = .found d ∧ d.rule = rule.name ∧
        (∃ identity ∈ registry.rules, registry.get? rule.name = some identity ∧
          identity.Treats config unit.tree d judgement) ∧
        (registry.Unambiguous → rule.Treats config unit.tree d judgement))
        (scan unit.tree unit.types registry).diagnostics judgements ∧
      report.diagnostics = judgements.filterMap Judgement.diagnostic? ∧
      report.suppressed = judgements.countP Judgement.isSuppression := by
  intro registry report
  have hnames : (registry.rules.map Rule.name).Nodup := Registry.nodup_ofList rules
  refine ⟨fun rule hrule => Registry.get?_name_iff hnames hrule, Registry.unambiguous_iff hnames,
    (scan unit.tree unit.types registry).diagnostics.map (judge config registry unit.tree), ?_,
    rfl, rfl⟩
  rw [List.forall₂_map_right_iff, List.forall₂_same]
  intro d hd
  obtain ⟨node, rule, hrule, -, hfound, hname, -⟩ := exists_found_of_mem hfinished.sound hd
  obtain ⟨identity, hidentity, hget⟩ := Registry.exists_get?_name hrule
  refine ⟨node, rule, hrule, hfound, hname,
    ⟨identity, hidentity, hget, judge_treats config unit.tree (hname ▸ hget)⟩, fun hclear => ?_⟩
  exact judge_treats config unit.tree (hname ▸ hclear.get?_name hrule)

/-- A rule, `name`, that flags everything below the root of a tree, to be deleted. -/
def flagBelow (name code : String) : Rule where
  name
  code
  check visit node :=
    if visit.parent? node = none then .noMatch
    else .finding { anchor := node, message := name, edits := [.delete (visit.tree.range node)] }

/-- A rule that never matches and has the name of an `other` among its `altNames`. -/
def answering (other : String) : Rule where
  name := "answering"
  code := "A1"
  altNames := [other]
  check _ _ := .noMatch

/-- A configuration that gives the rule `name` the severity `.info`. -/
def milder (name : String) : Config where
  rules := [(name, { severity := some .info })]

/-- Behind a rule that does not answer to its name, `flag` is found by it and has the severity
configured. -/
theorem treated_by_own_rule_blockTree :
    let registry := Registry.ofList [answering "other", flagBelow "flag" "F1"]
    let report := analyzeUnit (milder "flag") registry { tree := blockTree, types := {} }
    blockTree.Finished ∧ registry.Unambiguous ∧
      (∀ rule ∈ registry.rules, registry.get? rule.name = some rule) ∧
      report.diagnostics.map (fun d => (d.rule, d.severity)) =
        [("flag", .info), ("flag", .info)] := by
  intro registry report
  obtain ⟨-, hclear, -⟩ := treated_by_own_rule (milder "flag")
    [answering "other", flagBelow "flag" "F1"] { tree := blockTree, types := {} } finished_blockTree
  have hunambiguous : registry.Unambiguous := by decide
  exact ⟨finished_blockTree, hunambiguous, hclear.mp hunambiguous, by cbv⟩

theorem Rule.Treats.severity_of_kept {d' : Diagnostic}
    (h : rule.Treats config tree d (.kept d')) :
    d'.severity = (config.severity? rule.name).getD d.severity := by
  cases h
  rfl

/-- Rules of distinct names do not keep their own diagnostics: `answering` has `flag` among its
further keys and is found in its place. The severity that `milder` configures for `flag` is passed
over. -/
theorem not_treated_by_own_rule :
    let registry := Registry.ofList [answering "flag", flagBelow "flag" "F1"]
    let report := analyzeUnit (milder "flag") registry { tree := blockTree, types := {} }
    ([answering "flag", flagBelow "flag" "F1"].map Rule.name).Nodup ∧ blockTree.Finished ∧
      registry.get? "flag" = some (answering "flag") ∧
      (milder "flag").severity? "flag" = some .info ∧
      report.diagnostics.map (fun d => (d.rule, d.severity)) =
        [("flag", .error), ("flag", .error)] ∧
      ∀ d ∈ (scan blockTree {} registry).diagnostics, d.rule = (flagBelow "flag" "F1").name ∧
        ¬ (flagBelow "flag" "F1").Treats (milder "flag") blockTree d
          (judge (milder "flag") registry blockTree d) := by
  intro registry report
  refine ⟨by decide, finished_blockTree, rfl, rfl, by cbv, ?_⟩
  have hkept : ∀ d ∈ (scan blockTree {} registry).diagnostics, d.rule = "flag" ∧
      judge (milder "flag") registry blockTree d = .kept d ∧ d.severity = .error := by
    have hall : (scan blockTree {} registry).diagnostics.all (fun d => d.rule = "flag" ∧
        judge (milder "flag") registry blockTree d = .kept d ∧ d.severity = .error) = true := by
      cbv
    simpa only [List.all_eq_true, decide_eq_true_eq] using hall
  intro d hd
  obtain ⟨hrule, hjudge, hseverity⟩ := hkept d hd
  refine ⟨hrule, fun htreats => ?_⟩
  rw [hjudge] at htreats
  cases hseverity.symm.trans htreats.severity_of_kept

end TreeLint
