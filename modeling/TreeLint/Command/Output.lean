import TreeLint.Command.Request
import TreeLint.Diagnostic.Result

/-!
# Writing results

Every format lists the diagnostics first, then the failures. Texts are read by people and end with
a summary; the compact form has one line for each entry, and the JSON form can be read back.
-/

namespace TreeLint

/-- The `text` in one of a terminal's colours. -/
def coloured (colour : Nat) (text : String) : String := s!"\x1b[{colour}m{text}\x1b[0m"

/-- The name of the severity `s` in its colour: red, yellow or blue. -/
def Severity.coloured (s : Severity) : String :=
  let colour := match s with
    | .error => 31
    | .warning => 33
    | .info => 34
  TreeLint.coloured colour s.name

namespace LintResult

/-- The colour of the summary: red for what must be corrected, yellow for warnings, else green. -/
def summaryColour (r : LintResult) : Nat :=
  if r.hasErrors || r.hasFailures then 31 else if r.count .warning > 0 then 33 else 32

/-- The `lines`, each with its end. -/
def unlines (lines : List String) : String := String.join (lines.map (· ++ "\n"))

/-- The result `r` in paragraphs, in colour. -/
def renderText (r : LintResult) : String :=
  unlines (r.diagnostics.map (Diagnostic.paragraph Severity.coloured))
    ++ unlines (r.failures.map fun f => coloured 35 "internal" ++ " " ++ f.line)
    ++ unlines [coloured r.summaryColour r.summary]

/-- The result `r` as a JSON document on many lines. -/
def renderJson (r : LintResult) : String := r.toJson.pretty ++ "\n"

/-- The result `r` with one line for each entry. -/
def renderCompact (r : LintResult) : String :=
  unlines (r.diagnostics.map Diagnostic.line) ++ unlines (r.failures.map RuleFailure.line)

/-- The result in the rich format. Where a renderer draws a report of `Diagnostic.excerpt` over the
source, `Diagnostic.format` stands for the report; it is also what is printed of a diagnostic whose
source is not at hand. -/
def renderRich (r : LintResult) : String :=
  String.join (r.diagnostics.map Diagnostic.format) ++ unlines (r.failures.map RuleFailure.line)
    ++ unlines [r.summary]

/-- The result `r` in an `OutputFormat`. -/
def render (r : LintResult) : OutputFormat → String
  | .text => r.renderText
  | .json => r.renderJson
  | .compact => r.renderCompact
  | .rich => r.renderRich

end LintResult

end TreeLint
