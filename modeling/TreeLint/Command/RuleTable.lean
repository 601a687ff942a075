import TreeLint.Command.Output
import TreeLint.Rule.DiscardedResult

/-!
# The table of rules
-/

namespace TreeLint

/-- The `text` with blanks behind it up to `width`. -/
def padded (width : Nat) (text : String) : String :=
  text ++ String.ofList (List.replicate (width - text.length) ' ')

/-- The row of the rule `r`, and a second one when it has `altNames`. The severity takes no more
room than it needs. -/
def Rule.rows (r : Rule) : List String :=
  let trust := s!"{r.maturity.name}/{r.category.title}"
  let row := " ".intercalate
    [padded 8 r.code, padded 24 r.name, r.severity.name, padded 14 trust, r.description]
  let names := padded 8 "" ++ " also: " ++ ", ".intercalate r.altNames
  row :: if r.altNames.isEmpty then [] else [names]

/-- The rules that exist. -/
def knownRules : List Rule := [DiscardedResult.default.rule]

/-- The table of `knownRules`, with hints on their use. -/
def ruleTable : String := LintResult.unlines <|
  ["Available rules:", "",
   " ".intercalate [padded 8 "Code", padded 24 "Name", padded 9 "Severity", padded 14 "Maturity",
     "Description"],
   String.ofList (List.replicate 96 '-')]
  ++ knownRules.flatMap Rule.rows ++
  ["",
   "Presets:",
   "  recommended  - SF001 on String, BigInteger, BigDecimal (default)",
   "  strict       - SF001 also on java.time value types",
   "  minimal      - SF001 reported as warnings (for gradual adoption)",
   "",
   "Use --rules to filter specific rules, e.g.:",
   "  sift check --rules return-value-ignored",
   "  sift check --rules SF001"]

end TreeLint
