import TreeLint.Rule.Registry

/-!
# Scanning a tree

A scan visits every node of a tree once, in document order, and asks every rule about it, in the
order of the registry. What one rule says about one node gives a diagnostic, or a failure, or
nothing, and has no influence on any other answer.

- `evaluate` is one rule at one node.
- `askAll` puts every question of a scan in order; `scan` records what comes of each.
-/

namespace TreeLint

/-- What comes of asking one rule about one node. -/
inductive Evaluation where
  | nothing
  | found (diagnostic : Diagnostic)
  | failed (failure : RuleFailure)
  deriving DecidableEq, Repr

namespace Evaluation

/-- The diagnostic, if there is one. -/
def diagnostic? : Evaluation → Option Diagnostic
  | found d => some d
  | _ => none

/-- The failure, if there is one. -/
def failure? : Evaluation → Option RuleFailure
  | failed f => some f
  | _ => none

end Evaluation

/-- The diagnostic that `rule` gives for the finding `d`. Fails with the reason when the node
`d.anchor` is not in `tree`, or when the edits conflict. -/
def Description.toDiagnostic (rule : Rule) (tree : Tree) (d : Description) :
    Except String Diagnostic :=
  match tree.node? d.anchor with
  | none => .error s!"anchor {d.anchor} is not part of the tree"
  | some anchor =>
    match Fix.ofEdits d.edits with
    | .error e => .error s!"invalid fix: {e.message}"
    | .ok fix => .ok
      { code := rule.code, rule := rule.name, severity := rule.severity, anchor := d.anchor,
        location := .ofSpan tree anchor.range, message := d.message, help := d.help, fix }

/-- Asks `rule` about the `node` of a `visit`. -/
def evaluate (visit : Visit) (node : NodeId) (rule : Rule) : Evaluation :=
  let failed (reason : FailureReason) : Evaluation := .failed
    { rule := rule.name, node, location := .ofSpan visit.tree (visit.tree.range node), reason }
  match rule.check visit node with
  | .noMatch => .nothing
  | .finding d =>
    match d.toDiagnostic rule visit.tree with
    | .ok diagnostic => .found diagnostic
    | .error detail => failed (.invariant detail)
  | .violation place detail => failed (.invariant s!"{detail} at {place}")
  | .breakdown detail => failed (.breakdown detail)

/-- What a scan found. -/
structure ScanReport where
  diagnostics : List Diagnostic := []
  failures : List RuleFailure := []
  deriving DecidableEq, Repr, Inhabited

/-- The `report` after one more `Evaluation`. -/
def ScanReport.record (report : ScanReport) : Evaluation → ScanReport
  | .nothing => report
  | .found diagnostic => { report with diagnostics := report.diagnostics ++ [diagnostic] }
  | .failed failure => { report with failures := report.failures ++ [failure] }

/-- Walks through `tree` and calls `visit` for every node when it is entered. -/
def visitAll {σ : Type} (tree : Tree) (types : TypeTable) (visit : σ → Visit → NodeId → σ)
    (init : σ) : σ :=
  tree.walk (fun gathered node above => visit gathered { tree, types, trail := node :: above } node)
    init

/-- Walks through a tree and asks every rule at every visit, in the order of the registry. What
comes of a question is up to `ask`. -/
def askAll {σ : Type} (tree : Tree) (types : TypeTable) (registry : Registry)
    (ask : σ → Visit → NodeId → Rule → σ) (init : σ) : σ :=
  visitAll tree types (fun gathered visit node =>
    registry.rules.foldl (fun gathered rule => ask gathered visit node rule) gathered) init

/-- The visits of a scan of `tree`, in order. -/
def visits (tree : Tree) (types : TypeTable) : List (Visit × NodeId) :=
  visitAll tree types (fun seen visit node => seen ++ [(visit, node)]) []

/-- Asks every rule of `registry` about every node of `tree`, and records what comes of it. -/
def scan (tree : Tree) (types : TypeTable) (registry : Registry) : ScanReport :=
  askAll tree types registry
    (fun report visit node rule => report.record (evaluate visit node rule)) {}

end TreeLint
