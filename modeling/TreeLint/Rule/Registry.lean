import TreeLint.Rule.Basic

/-!
# Registries

A registry holds rules in the order in which they are asked. No two have the same name, but one
may answer to the name of another: `Registry.get?` finds the first that answers to a key.
-/

namespace TreeLint

/-- Rules in the order in which they are asked. -/
structure Registry where
  rules : List Rule := []
  deriving Inhabited

namespace Registry

/-- Adds `rule` behind the others, unless one has its name. -/
def add (registry : Registry) (rule : Rule) : Registry :=
  if registry.rules.any (·.name == rule.name) then registry else ⟨registry.rules ++ [rule]⟩

/-- A registry of `rules`; of those with one name, the first is kept. -/
def ofList (rules : List Rule) : Registry := rules.foldl add {}

/-- The first rule that answers to `key`. -/
def get? (registry : Registry) (key : String) : Option Rule :=
  registry.rules.find? (·.answersTo key)

end Registry

end TreeLint
