import TreeLint.Diagnostic.Basic
import TreeLint.Suppress.Directive

/-!
# Suppressed findings

A finding is suppressed by a key on its node or on a node above it, or else by an allow directive
at its line. A directive without a reason suppresses, too, but a rule that demands a reason is
reported for want of it.
-/

namespace TreeLint

/-- How a finding is suppressed. -/
inductive Suppression where
  /-- A key on this node names the rule. -/
  | marked (node : NodeId)
  /-- A directive allows the rule. -/
  | directive (reason : Option String)
  deriving DecidableEq, Repr

/-- The innermost node at or above `anchor` with a key that names the rule. -/
def annotatedAbove? (tree : Tree) (anchor : NodeId) (rule : Rule) : Option NodeId :=
  (tree.ancestors anchor).find? fun node =>
    ((tree.node? node).map fun node => rule.namedIn node.suppressions).getD false

/-- How a diagnostic of `rule` is suppressed, if it is. -/
def suppression? (tree : Tree) (d : Diagnostic) (rule : Rule) : Option Suppression :=
  match annotatedAbove? tree d.anchor rule with
  | some node => some (.marked node)
  | none =>
    match allowance tree.source.toList d.location.line rule with
    | .allowed reason => some (.directive reason)
    | .denied => none

/-- The warning about a directive that allows `rule` at `location` and lacks a reason. -/
def missingReason (rule : Rule) (anchor : NodeId) (location : Location) : Diagnostic where
  code := rule.code
  rule := rule.name
  severity := .warning
  anchor
  location
  message := s!"Allow directive for '{rule.name}' is missing required reason"
  help := some "Add reason=\"...\" to explain why this exception is necessary"

end TreeLint
