import TreeLint.Config.Basic
import TreeLint.Toml.Reader

/-!
# Reading configurations

A configuration is a TOML document. Unknown keys are passed over, except in the section of a rule,
where they are the options of the rule. A value of the wrong type spoils the whole document.

The settings of the analyser may also be written as an array, in the order of the fields; fields
missing at the end have their defaults and items behind the last field are passed over.
-/

namespace TreeLint

namespace Toml

/-- A truth value. -/
def boolean? : Toml → Option Bool
  | boolean b => some b
  | _ => none

/-- An integer that is not negative. -/
def natural? : Toml → Option Nat
  | integer (.ofNat n) => some n
  | _ => none

/-- A list of texts; none if an item of `v` is no text. -/
def strings? (v : Toml) : Option (List String) := v.array?.bind fun items => items.mapM string?

/-- A severity, by its name or as a table or array whose only key is the name of the severity and
holds nothing. -/
def severity? : Toml → Option Severity
  | string s => Severity.ofName? s
  | table [(name, table [])] | table [(name, array [])] => Severity.ofName? name
  | _ => none

/-- What `read` makes of a member, or `default` if there is none. -/
def memberOr (members : List (String × Toml)) (key : String) (default : α)
    (read : Toml → Option α) : Option α :=
  match members.lookup key with
  | none => some default
  | some v => read v

end Toml

namespace AnalyzerSettings

/-- The fields of `AnalyzerSettings` in their order. -/
def fields : List String :=
  ["root", "exclude", "include", "respect_gitignore", "parallelism", "fail_on_unit_error"]

/-- Reads the settings from a table `v`, or from an array that has the values in the order of
`fields`. -/
def ofToml? (v : Toml) : Option AnalyzerSettings := do
  let members ← v.members?.or (v.array?.map fun items => fields.zip items)
  let d : AnalyzerSettings := {}
  some
    { root := ← Toml.memberOr members "root" d.root Toml.string?
      exclude := ← Toml.memberOr members "exclude" d.exclude Toml.strings?
      patterns := ← Toml.memberOr members "include" d.patterns Toml.strings?
      respectGitignore := ← Toml.memberOr members "respect_gitignore" d.respectGitignore Toml.boolean?
      parallelism := ← Toml.memberOr members "parallelism" none fun v => v.natural?.map some
      failOnUnitError := ← Toml.memberOr members "fail_on_unit_error" d.failOnUnitError Toml.boolean? }

end AnalyzerSettings

namespace RuleSection

/-- Reads the settings of a rule from a table `v`: `enabled`, `severity`, and whatever else is there
as `options`. -/
def ofToml? (v : Toml) : Option RuleSection := do
  let members ← v.members?
  some
    { enabled := ← Toml.memberOr members "enabled" none fun v => v.boolean?.map some
      severity := ← Toml.memberOr members "severity" none fun v => v.severity?.map some
      options := members.filter fun (key, _) => key != "enabled" && key != "severity" }

end RuleSection

namespace Config

/-- Reads a configuration from `text`. -/
def parse? (text : String) : Option Config := do
  let members ← Toml.parse? text
  some
    { preset := ← Toml.memberOr members "preset" none fun v => v.string?.map some
      failOn := ← Toml.memberOr members "fail_on" none fun v => v.severity?.map some
      analyzer := ← Toml.memberOr members "analyzer" .default AnalyzerSettings.ofToml?
      rules := ← Toml.memberOr members "rules" [] fun v => do
        (← v.members?).mapM fun (name, settings) => do some (name, ← RuleSection.ofToml? settings) }

end Config

end TreeLint
