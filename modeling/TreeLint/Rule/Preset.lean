import TreeLint.Config.Basic
import TreeLint.Rule.DiscardedResult

/-!
# Presets

A preset is a choice of rules and of their settings, which a configuration adjusts further.
-/

namespace TreeLint

namespace DiscardedResult

/-- The `settings` with those of `options` in place of their own. -/
def configure (settings : DiscardedResult) (options : RuleSection) : DiscardedResult :=
  { settings with
    types := (options.texts? "types").getD settings.types
    selfKeyword := options.text "self_keyword" settings.selfKeyword }

end DiscardedResult

/-- A choice of rules. -/
inductive Preset where
  | recommended
  /-- Checks more types. -/
  | strict
  /-- Warns only, for projects that begin to use the rules. -/
  | minimal
  deriving DecidableEq, Repr, Inhabited

namespace Preset

/-- The preset called `name`, in letters of any case. -/
def ofName? (name : String) : Option Preset :=
  [("recommended", recommended), ("strict", strict), ("minimal", minimal)].lookup
    (String.ofList (name.toList.map Char.toLower))

/-- The preset that `c` names; the `recommended` one if it names none that exists. -/
def ofConfig (c : Config) : Preset := (c.preset.bind ofName?).getD recommended

/-- Types that only the strict preset checks. -/
def strictTypes : List String :=
  ["java.time.Duration", "java.time.Instant", "java.time.LocalDate", "java.time.LocalDateTime"]

/-- The settings of the rule on discarded results. -/
def discardedResult : Preset → DiscardedResult
  | recommended => .default
  | strict => { DiscardedResult.default with types := DiscardedResult.defaultTypes ++ strictTypes }
  | minimal => { DiscardedResult.default with severity := .warning }

/-- The rules of the preset `p`. -/
def rules (p : Preset) : List Rule := [p.discardedResult.rule]

/-- The rules of the preset `p` with the settings that `c` gives them. -/
def configuredRules (p : Preset) (c : Config) : List Rule :=
  let settings := p.discardedResult
  match c.rules.get? DiscardedResult.ruleName with
  | some options => [(settings.configure options).rule]
  | none => [settings.rule]

end Preset

end TreeLint
