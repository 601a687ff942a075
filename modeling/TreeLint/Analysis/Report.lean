import TreeLint.Config.Basic
import TreeLint.Diagnostic.Result
import TreeLint.Scan
import TreeLint.Suppress.Decision
import TreeLint.Unit.Load

/-!
# Analysing a unit

The diagnostics of a scan are judged one by one: a suppressed one is dropped, or replaced by a
warning when its directive lacks a reason that the rule demands; any other gets the severity that
is configured for its rule.
-/

namespace TreeLint

/-- What an analysis found in one unit. -/
structure UnitReport where
  /-- The path of the document, or the path of the tree. -/
  document : String
  unit : SourceUnit
  /-- The diagnostics that were not suppressed, in document order. -/
  diagnostics : List Diagnostic
  failures : List RuleFailure
  /-- Number of diagnostics that were suppressed. -/
  suppressed : Nat
  deriving Repr, Inhabited

/-- What becomes of a diagnostic. -/
inductive Judgement where
  | kept (d : Diagnostic)
  | dropped
  /-- Suppressed by a directive without the reason that the rule demands. -/
  | replaced (warning : Diagnostic)
  deriving DecidableEq, Repr

namespace Judgement

/-- The diagnostic reported in the end. -/
def diagnostic? : Judgement → Option Diagnostic
  | kept d | replaced d => some d
  | dropped => none

/-- Whether the diagnostic was suppressed. -/
def isSuppression : Judgement → Bool
  | kept _ => false
  | dropped | replaced _ => true

end Judgement

/-- Judges `d` by the rule that `registry` finds under the name that `d` bears. -/
def judge (config : Config) (registry : Registry) (tree : Tree) (d : Diagnostic) : Judgement :=
  match registry.get? d.rule with
  | none => .kept d
  | some rule =>
    match suppression? tree d rule with
    | some (.marked _) => .dropped
    | some (.directive reason) =>
      if reason.isNone && rule.requiresReason then
        .replaced (missingReason rule d.anchor d.location)
      else .dropped
    | none => .kept { d with severity := (config.severity? rule.name).getD d.severity }

/-- The report on `unit`: what a `scan` finds in it, each diagnostic after `judge` has seen it. -/
def analyzeUnit (config : Config) (registry : Registry) (unit : SourceUnit) : UnitReport :=
  let report := scan unit.tree unit.types registry
  let judgements := report.diagnostics.map (judge config registry unit.tree)
  { document := unit.tree.path, unit
    diagnostics := judgements.filterMap Judgement.diagnostic?
    failures := report.failures
    suppressed := judgements.countP Judgement.isSuppression }

namespace UnitReport

/-- The report `r` as the result of a run on one unit. -/
def result (r : UnitReport) : LintResult := ⟨r.diagnostics, r.failures, 1⟩

end UnitReport

end TreeLint
