import TreeLint.Diagnostic.Basic
import TreeLint.Visit

/-!
# Rules

A rule looks at one node of a tree at a time and gives a `Verdict`. A rule is a value: its facts,
by which users and configurations name it, and its check, which depends on the visit alone.
-/

namespace TreeLint

/-- The kind of code that a rule is about. -/
inductive Category where
  /-- Misuse of the standard library. -/
  | jdk
  /-- Misuse of another library. -/
  | library
  /-- A convention of one project. -/
  | oneOff
  deriving DecidableEq, Repr, Inhabited

namespace Category

/-- The name of a category as a key. -/
def key : Category → String
  | jdk => "jdk"
  | library => "library"
  | oneOff => "one_off"

/-- The name of a category as it is shown. -/
def title : Category → String
  | jdk => "jdk"
  | library => "library"
  | oneOff => "one-off"

end Category

/-- How far the findings of a rule can be trusted. -/
inductive Maturity where
  /-- Few findings are wrong. -/
  | mature
  /-- Still on trial. -/
  | experimental
  deriving DecidableEq, Repr, Inhabited

namespace Maturity

/-- The name of a maturity. -/
def name : Maturity → String
  | mature => "mature"
  | experimental => "experimental"

end Maturity

/-- A finding before it becomes a diagnostic. -/
structure Description where
  anchor : NodeId
  message : String
  help : Option String := none
  /-- The proposed edits, in any order and not yet checked. -/
  edits : List Edit := []
  deriving DecidableEq, Repr, Inhabited

/-- What a rule says about a node. -/
inductive Verdict where
  | noMatch
  | finding (description : Description)
  /-- The tree has a shape at `node` that the rule assumes cannot exist. -/
  | violation (node : NodeId) (detail : String)
  /-- The rule broke down. -/
  | breakdown (detail : String)
  deriving DecidableEq, Repr, Inhabited

/-- A rule. -/
structure Rule where
  name : String
  code : String
  /-- Further keys by which the rule can be named. -/
  altNames : List String := []
  description : String := ""
  explanation : String := ""
  category : Category := .oneOff
  maturity : Maturity := .experimental
  severity : Severity := .error
  /-- Whether a comment that allows the rule must say why; so it is for errors unless the rule
  decides otherwise. -/
  requiresReason : Bool := severity = .error
  check : Visit → NodeId → Verdict
  deriving Inhabited

namespace Rule

/-- Whether `key` names the rule: by its name, its code or one of its further keys. -/
def answersTo (rule : Rule) (key : String) : Bool :=
  key == rule.name || key == rule.code || rule.altNames.contains key

end Rule

end TreeLint
