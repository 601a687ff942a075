import TreeLint.Diagnostic.Severity
import TreeLint.Toml.Value

/-!
# Configurations

A configuration chooses a preset of rules, adjusts single rules, and says which unit documents are
analysed and which findings make a run fail.
-/

namespace TreeLint

/-- The pattern of unit documents unless others are configured. -/
def defaultPattern : String := "**/*.sift.json"

/-- Which unit documents are analysed, and how. -/
structure AnalyzerSettings where
  /-- The folder to look in. -/
  root : String := "."
  /-- Patterns of paths that are left out. -/
  exclude : List String := []
  /-- Patterns of unit documents. -/
  patterns : List String := [defaultPattern]
  /-- Whether files that version control ignores are left out. -/
  respectGitignore : Bool := true
  /-- Number of workers. No result depends on it. -/
  parallelism : Option Nat := none
  /-- Whether a document that cannot be loaded ends the run. -/
  failOnUnitError : Bool := false
  deriving DecidableEq, Repr, Inhabited

/-- The settings used when none are given; they leave out the folders of build tools. -/
def AnalyzerSettings.default : AnalyzerSettings where
  exclude := ["**/target/**", "**/build/**"]

/-- The settings of one rule. -/
structure RuleSection where
  enabled : Option Bool := none
  severity : Option Severity := none
  /-- Settings that only the rule itself knows. -/
  options : Assoc String Toml := []
  deriving Repr, Inhabited

namespace RuleSection

/-- The text of the option `key`, or else `default`. -/
def text (s : RuleSection) (key default : String) : String :=
  ((s.options.get? key).bind Toml.string?).getD default

/-- The option `key` that is a list of texts; items of other types are passed over. -/
def texts? (s : RuleSection) (key : String) : Option (List String) :=
  ((s.options.get? key).bind Toml.array?).map fun items => items.filterMap Toml.string?

end RuleSection

/-- A configuration. -/
structure Config where
  preset : Option String := none
  failOn : Option Severity := none
  analyzer : AnalyzerSettings := .default
  /-- The settings of rules, by their names. -/
  rules : Assoc String RuleSection := []
  deriving Repr, Inhabited

namespace Config

/-- Whether the rule called `rule` is asked at all. -/
def isEnabled (c : Config) (rule : String) : Bool :=
  ((c.rules.get? rule).bind RuleSection.enabled).getD true

/-- The severity configured for the findings of the rule called `rule`. -/
def severity? (c : Config) (rule : String) : Option Severity :=
  (c.rules.get? rule).bind RuleSection.severity

/-- The least severity that makes a run fail, `error` unless `failOn` says otherwise. -/
def threshold (c : Config) : Severity := c.failOn.getD .error

end Config

end TreeLint
