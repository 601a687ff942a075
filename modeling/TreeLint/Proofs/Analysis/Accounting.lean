import TreeLint.Command.Correction
import TreeLint.Proofs.Analysis.Treatment
import TreeLint.Proofs.Edit.Merge

/-!
# What becomes of the diagnostics of a scan

Each diagnostic of a scan is kept, dropped or replaced by a warning, and a report has what is left,
in the order of the scan.

- `isSuppressed`, `isUnexplained`: how the analysis sorts the diagnostics of a scan.
- `Stems`: what a diagnostic of a report owes to one of the scan.
- `judge_cases`: the three outcomes for one diagnostic.
- `analyzeUnit_accounts`: nothing is lost and nothing is counted twice, and no suppressed
  diagnostic hands on an edit.
- `not_accounts_code`: a warning that bears the name of another rule.
-/

namespace TreeLint

open Edit

variable {config : Config} {registry : Registry} {tree : Tree} {d d' : Diagnostic}

/-- Whether the rule that `registry.get?` finds under `d.rule` holds `d` for suppressed. -/
def isSuppressed (registry : Registry) (tree : Tree) (d : Diagnostic) : Bool :=
  (registry.get? d.rule).any fun rule => (suppression? tree d rule).isSome

/-- Whether `d` is suppressed by a directive without a reason, where the rule found demands one
(`requiresReason`). -/
def isUnexplained (registry : Registry) (tree : Tree) (d : Diagnostic) : Bool :=
  (registry.get? d.rule).any fun rule =>
    rule.requiresReason && suppression? tree d rule = some (.directive none)

/-- The warning, in the name of `rule`, that the directive for a diagnostic lacks a reason. -/
structure Rule.Warns (rule : Rule) (d warning : Diagnostic) : Prop where
  code : warning.code = rule.code
  rule : warning.rule = rule.name
  anchor : warning.anchor = d.anchor
  location : warning.location = d.location
  severity : warning.severity = .warning
  fix : warning.fix = {}

/-- The severity that `config` gives the rule found under `d.rule`, or else `d.severity`. -/
def configuredSeverity (config : Config) (registry : Registry) (d : Diagnostic) : Severity :=
  ((registry.get? d.rule).bind fun rule => config.severity? rule.name).getD d.severity

/-- What a diagnostic of a report owes to the diagnostic `d` of a scan. -/
inductive Stems (config : Config) (registry : Registry) (tree : Tree) (d : Diagnostic) :
    Diagnostic → Prop
  /-- It is `d`, but for a severity that is configured. -/
  | kept (hopen : isSuppressed registry tree d = false) :
      Stems config registry tree d { d with severity := configuredSeverity config registry d }
  /-- It warns about the directive that suppresses `d`. -/
  | warning {rule : Rule} {warning : Diagnostic} (hrule : registry.get? d.rule = some rule)
      (hunexplained : isUnexplained registry tree d = true) (hwarns : rule.Warns d warning) :
      Stems config registry tree d warning

/-! ## One diagnostic -/

theorem Rule.warns_missingReason (rule : Rule) (d : Diagnostic) :
    rule.Warns d (missingReason rule d.anchor d.location) := ⟨rfl, rfl, rfl, rfl, rfl, rfl⟩

/-- A diagnostic `d` that is not suppressed is kept. A suppressed one is replaced by a warning when
it is `isUnexplained`, and dropped otherwise. -/
theorem judge_cases (config : Config) (registry : Registry) (tree : Tree) (d : Diagnostic) :
    (isSuppressed registry tree d = false ∧ isUnexplained registry tree d = false ∧
      judge config registry tree d =
        .kept { d with severity := configuredSeverity config registry d }) ∨
    (isSuppressed registry tree d = true ∧ isUnexplained registry tree d = true ∧
      ∃ rule, registry.get? d.rule = some rule ∧
        judge config registry tree d = .replaced (missingReason rule d.anchor d.location)) ∨
    (isSuppressed registry tree d = true ∧ isUnexplained registry tree d = false ∧
      judge config registry tree d = .dropped) := by
  -- The cases follow `judge`: is a rule found, does it hold `d` for suppressed, and by what?
  simp only [judge, isSuppressed, isUnexplained, configuredSeverity]
  cases hget : registry.get? d.rule with
  | none => exact .inl ⟨rfl, rfl, rfl⟩
  | some rule =>
    simp only [Option.any_some]
    cases suppression? tree d rule with
    | none => exact .inl ⟨rfl, by simp, rfl⟩
    | some suppression =>
      cases suppression with
      | marked node => exact .inr (.inr ⟨rfl, by simp, rfl⟩)
      | directive reason =>
        cases reason with
        | some reason => exact .inr (.inr ⟨rfl, by simp, rfl⟩)
        | none =>
          cases hreason : rule.requiresReason with
          | true => exact .inr (.inl ⟨rfl, by simp, rule, rfl, by simp⟩)
          | false => exact .inr (.inr ⟨rfl, by simp, by simp⟩)

/-! ## All diagnostics -/

section

variable (config : Config) (registry : Registry) (tree : Tree) (found : List Diagnostic)

/-- What is left of the diagnostics `found` by a scan once `judge` has seen each. -/
def judged : List Diagnostic :=
  (found.map (judge config registry tree)).filterMap Judgement.diagnostic?

/-- The diagnostics of `found` that leave something in the report, themselves or a warning. -/
def survivors : List Diagnostic :=
  found.filter fun d => !isSuppressed registry tree d || isUnexplained registry tree d

/-- The diagnostics of `found` for which `isSuppressed` fails. -/
def unsuppressed : List Diagnostic := found.filter fun d => !isSuppressed registry tree d

theorem forall₂_survivors :
    List.Forall₂ (Stems config registry tree) (survivors registry tree found)
      (judged config registry tree found) := by
  induction found with
  | nil => exact .nil
  | cons d found ih =>
    simp only [survivors, judged, List.filter_cons, List.map_cons, List.filterMap_cons] at ih ⊢
    rcases judge_cases config registry tree d with
      ⟨hopen, -, hj⟩ | ⟨hs, hunexplained, rule, hrule, hj⟩ | ⟨hs, hnot, hj⟩
    · simp only [hj, hopen, Judgement.diagnostic?, Bool.not_false, Bool.true_or, if_true]
      exact .cons (.kept hopen) ih
    · simp only [hj, hs, hunexplained, Judgement.diagnostic?, Bool.or_true, if_true]
      exact .cons (.warning hrule hunexplained (rule.warns_missingReason d)) ih
    · simpa [hj, hs, hnot, Judgement.diagnostic?] using ih

theorem length_judged :
    (judged config registry tree found).length +
        (found.map (judge config registry tree)).countP Judgement.isSuppression =
      found.length + (found.filter (isUnexplained registry tree)).length := by
  induction found with
  | nil => rfl
  | cons d found ih =>
    simp only [judged, List.filter_cons, List.map_cons, List.filterMap_cons, List.countP_cons,
      List.length_cons] at ih ⊢
    rcases judge_cases config registry tree d with
      ⟨-, hnot, hj⟩ | ⟨-, hunexplained, rule, -, hj⟩ | ⟨-, hnot, hj⟩
    · simp only [hj, hnot, Judgement.diagnostic?, Judgement.isSuppression, List.length_cons]
      simp only [Bool.false_eq_true, if_false]
      omega
    · simp only [hj, hunexplained, Judgement.diagnostic?, Judgement.isSuppression,
        List.length_cons, if_true]
      omega
    · simp only [hj, hnot, Judgement.diagnostic?, Judgement.isSuppression, if_true]
      simp only [Bool.false_eq_true, if_false]
      omega

/-- The fixes with edits in `judged` are those of the `unsuppressed` diagnostics: a warning that
replaces a diagnostic has no edit. -/
theorem filter_fix_judged :
    ((judged config registry tree found).map Diagnostic.fix).filter (!·.isEmpty) =
      ((unsuppressed registry tree found).map Diagnostic.fix).filter (!·.isEmpty) := by
  induction found with
  | nil => rfl
  | cons d found ih =>
    simp only [judged, unsuppressed, List.filter_cons, List.map_cons, List.filterMap_cons] at ih ⊢
    rcases judge_cases config registry tree d with
      ⟨hopen, -, hj⟩ | ⟨hs, -, rule, -, hj⟩ | ⟨hs, -, hj⟩
    · simp only [hj, hopen, Judgement.diagnostic?, Bool.not_false, if_true, List.map_cons,
        List.filter_cons, ih]
    · simpa [hj, hs, Judgement.diagnostic?, missingReason, Fix.isEmpty] using ih
    · simpa [hj, hs, Judgement.diagnostic?] using ih

end

/-! ## Reports -/

/-- When `registry` finds rules by their names (`hclear`), a warning `d'` has the code and the name
of the diagnostic `d` that it stands for. -/
theorem Stems.code_rule {types : TypeTable} (htree : tree.Sound) (hclear : registry.Unambiguous)
    (hd : d ∈ (scan tree types registry).diagnostics) (h : Stems config registry tree d d') :
    d'.code = d.code ∧ d'.rule = d.rule := by
  obtain ⟨-, own, hown, -, -, hname, hcode⟩ := exists_found_of_mem htree hd
  cases h with
  | kept => exact ⟨rfl, rfl⟩
  | warning hrule _ hwarns =>
    rw [hname, hclear.get?_name hown] at hrule
    cases hrule
    exact ⟨hwarns.code.trans hcode.symm, hwarns.rule.trans hname.symm⟩

/-- The fix of a diagnostic `d` of a report is `ConflictFree`. -/
theorem conflictFree_of_mem_analyzeUnit {unit : SourceUnit} (hfinished : unit.tree.Finished)
    (hd : d ∈ (analyzeUnit config registry unit).diagnostics) : ConflictFree d.fix.edits := by
  obtain ⟨judgement, hjudgement, hd⟩ := List.mem_filterMap.mp hd
  obtain ⟨found, hfound, rfl⟩ := List.mem_map.mp hjudgement
  rcases judge_cases config registry unit.tree found with
    ⟨-, -, hj⟩ | ⟨-, -, rule, -, hj⟩ | ⟨-, -, hj⟩
  · obtain ⟨node, rule, -, -, hanswer, -⟩ := exists_found_of_mem hfinished.sound hfound
    obtain ⟨description, -, -, hfree, rfl⟩ := found_iff.mp hanswer
    rw [hj] at hd
    cases hd
    exact hfree.perm (sortEdits_perm description.edits).symm
  · rw [hj] at hd
    cases hd
    exact .nil
  · rw [hj] at hd
    cases hd

/-- **The accounts of an analysis.** The diagnostics of `report` stem (`Stems`), in the order of the
scan, from the `survivors` of `found`: the ones that are not suppressed, each with no more changed
than its severity, and those that are `isUnexplained`, each with a warning at its place. With
`report.suppressed` they are as many as `found`, and one more for each warning. `report.failures`
are those of the scan. The edits that `report` hands on, and the ones it merges, are those of the
`unsuppressed` diagnostics, in order. Where every rule is found by its name
(`registry.Unambiguous`), a warning bears the code and the name of the diagnostic that it stems
from. -/
theorem analyzeUnit_accounts (config : Config) (registry : Registry) (unit : SourceUnit)
    (hfinished : unit.tree.Finished) :
    let found := (scan unit.tree unit.types registry).diagnostics
    let report := analyzeUnit config registry unit
    let survivors := survivors registry unit.tree found
    let unsuppressed := unsuppressed registry unit.tree found
    survivors.Sublist found ∧
    List.Forall₂ (Stems config registry unit.tree) survivors report.diagnostics ∧
    report.diagnostics.length + report.suppressed =
      found.length + (found.filter (isUnexplained registry unit.tree)).length ∧
    report.failures = (scan unit.tree unit.types registry).failures ∧
    report.diagnostics.flatMap (·.fix.edits) = unsuppressed.flatMap (·.fix.edits) ∧
    report.merged.1 = (({} : EditBuffer).offerAll (unsuppressed.map Diagnostic.fix)).1 ∧
    (registry.Unambiguous → List.Forall₂ (fun d d' => d'.code = d.code ∧ d'.rule = d.rule)
      survivors report.diagnostics) := by
  intro found report survivors unsuppressed
  have hsub : survivors.Sublist found := List.filter_sublist
  have hstems : List.Forall₂ (Stems config registry unit.tree) survivors report.diagnostics :=
    forall₂_survivors config registry unit.tree found
  have hfixes : (report.diagnostics.map Diagnostic.fix).filter (!·.isEmpty) =
      (unsuppressed.map Diagnostic.fix).filter (!·.isEmpty) :=
    filter_fix_judged config registry unit.tree found
  refine ⟨hsub, hstems, length_judged config registry unit.tree found, rfl, ?_, ?_,
    fun hclear => ?_⟩
  -- A fix without edits adds none, so both lists of fixes may be cut down to those with edits.
  · have hedits (ds : List Diagnostic) :
        ds.flatMap (·.fix.edits) = EditBuffer.editsOf (ds.map Diagnostic.fix) :=
      (List.flatMap_map ..).symm
    rw [hedits, hedits, ← EditBuffer.editsOf_filter, hfixes, EditBuffer.editsOf_filter]
  · rw [UnitReport.merged, ← EditBuffer.offerAll_filter, hfixes, EditBuffer.offerAll_filter]
  · refine ((List.forall₂_and_left _ _).mpr ⟨fun d hd => hsub.subset hd, hstems⟩).imp ?_
    rintro d d' ⟨hd, h⟩
    exact h.code_rule hfinished.sound hclear hd

/-- Calls that build a block of two statements, on a line each; the comment on the line of node
`⟨1⟩` allows a rule to be broken there, and gives no reason. -/
def allowedCalls : List BuilderCall :=
  [.push .block (.point 0) none, .push .expressionStatement ⟨0, 2⟩ none, .attach ⟨0⟩ ⟨1⟩,
    .push .expressionStatement ⟨24, 26⟩ none, .attach ⟨0⟩ ⟨2⟩, .setRange ⟨0⟩ ⟨0, 26⟩]

/-- The tree that `allowedCalls` builds. -/
def allowedTree : Tree where
  path := "A.java"
  source := "a; // sift: allow(flag)\nb;"
  nodes := #[
    { kind := .block, range := ⟨0, 26⟩, children := [⟨1⟩, ⟨2⟩] },
    { kind := .expressionStatement, range := ⟨0, 2⟩, parent := some ⟨0⟩ },
    { kind := .expressionStatement, range := ⟨24, 26⟩, parent := some ⟨0⟩ }]
  root := ⟨0⟩

theorem finished_allowedTree : allowedTree.Finished := by
  refine ⟨"A.java", "a; // sift: allow(flag)\nb;", allowedCalls, ⟨0⟩, by decide, ?_⟩
  refine Builder.finish_eq_ok_iff_checks.mpr
    ⟨by decide, rfl, rfl, Builder.checkReach_eq_ok_iff.mpr ⟨by decide, ?_⟩, rfl⟩
  rintro ⟨index⟩ hindex
  have hlt : index < 3 := of_decide_eq_true hindex
  match index, hlt with
  | 0, _ => exact .refl
  | 1, _ => exact .single (.head _)
  | 2, _ => exact .single (.tail _ (.head _))

/-- In `allowedTree` the first statement is allowed without a reason, the second is kept with the
severity that `milder` configures. The edit of the second alone is handed on. -/
theorem analyzeUnit_accounts_allowedTree :
    let registry := Registry.ofList [answering "other", flagBelow "flag" "F1"]
    let unit : SourceUnit := { tree := allowedTree, types := {} }
    let found := (scan allowedTree {} registry).diagnostics
    let report := analyzeUnit (milder "flag") registry unit
    allowedTree.Finished ∧ registry.Unambiguous ∧
      report.diagnostics.map (fun d => (d.rule, d.severity)) =
        [("flag", .warning), ("flag", .info)] ∧
      report.diagnostics.length + report.suppressed = found.length + 1 ∧
      report.diagnostics.flatMap (·.fix.edits) = [.delete ⟨24, 26⟩] ∧
      List.Forall₂ (fun d d' => d'.code = d.code ∧ d'.rule = d.rule)
        (survivors registry allowedTree found) report.diagnostics := by
  intro registry unit found report
  obtain ⟨-, -, hlength, -, hedits, -, hrules⟩ :=
    analyzeUnit_accounts (milder "flag") registry unit finished_allowedTree
  have hclear : registry.Unambiguous := by decide
  have hwarnings : ((scan allowedTree {} registry).diagnostics.filter
      (isUnexplained registry allowedTree)).length = 1 := by cbv
  have hopen : (unsuppressed registry allowedTree
      (scan allowedTree {} registry).diagnostics).flatMap (·.fix.edits) = [.delete ⟨24, 26⟩] := by
    cbv
  exact ⟨finished_allowedTree, hclear, by cbv, hwarnings ▸ hlength, hedits.trans hopen,
    hrules hclear⟩

/-- Without `Unambiguous`, the warning about a directive need not bear the code and the name of the
diagnostic that it stands for: the rule `answering` has the name `flag` for a further key, and is
found in the place of its own. -/
theorem not_accounts_code :
    let registry := Registry.ofList [answering "flag", flagBelow "flag" "F1"]
    let found := (scan allowedTree {} registry).diagnostics
    let report := analyzeUnit {} registry { tree := allowedTree, types := {} }
    ([answering "flag", flagBelow "flag" "F1"].map Rule.name).Nodup ∧ allowedTree.Finished ∧
      found.map (fun d => (d.code, d.rule)) = [("F1", "flag"), ("F1", "flag")] ∧
      report.diagnostics.map (fun d => (d.code, d.rule, d.severity)) =
        [("A1", "answering", .warning), ("F1", "flag", .error)] ∧
      ¬ List.Forall₂ (fun d d' => d'.code = d.code ∧ d'.rule = d.rule)
        (survivors registry allowedTree found) report.diagnostics := by
  intro registry found report
  have hfound : (scan allowedTree {} registry).diagnostics.map (fun d => (d.code, d.rule)) =
      [("F1", "flag"), ("F1", "flag")] := by cbv
  have hreport : report.diagnostics.map (fun d => (d.code, d.rule, d.severity)) =
      [("A1", "answering", .warning), ("F1", "flag", .error)] := by cbv
  refine ⟨by decide, finished_allowedTree, hfound, hreport, fun hsame => ?_⟩
  have hcodes : (survivors registry allowedTree found).map Diagnostic.code =
      report.diagnostics.map Diagnostic.code := by
    rw [← List.forall₂_eq_eq_eq, List.forall₂_map_left_iff, List.forall₂_map_right_iff]
    exact hsame.imp fun d d' h => h.1.symm
  have hsurvivors : (survivors registry allowedTree
      (scan allowedTree {} registry).diagnostics).map Diagnostic.code = ["F1", "F1"] := by cbv
  have hwarning : report.diagnostics.map Diagnostic.code = ["A1", "F1"] := by cbv
  exact absurd (hsurvivors.symm.trans (hcodes.trans hwarning)) (by decide)

end TreeLint
