/-!
# Severities
-/

namespace TreeLint

/-- How grave a finding is, the least grave first. -/
inductive Severity where
  | info
  | warning
  | error
  deriving DecidableEq, Repr, Inhabited

namespace Severity

/-- Each severity with its name. -/
def byName : List (String × Severity) := [("info", info), ("warning", warning), ("error", error)]

/-- The name of a severity. -/
def name : Severity → String
  | info => "info"
  | warning => "warning"
  | error => "error"

/-- The severity called `name`. -/
def ofName? (name : String) : Option Severity := byName.lookup name

/-- The place of a severity in the order. -/
def rank : Severity → Nat
  | info => 0
  | warning => 1
  | error => 2

/-- Whether `s` is at least as grave as `threshold`. -/
def atLeast (s threshold : Severity) : Bool := threshold.rank ≤ s.rank

instance : ToString Severity := ⟨name⟩

end Severity

end TreeLint
