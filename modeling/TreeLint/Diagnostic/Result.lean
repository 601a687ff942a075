import TreeLint.Diagnostic.Basic
import TreeLint.Edit.Json

/-!
# Lint results

The findings and failures of a run over any number of units, and their form in JSON. `LintResult`
is read back from what it is printed as, on one line or on many.
-/

namespace TreeLint

/-- What a run found. -/
structure LintResult where
  diagnostics : List Diagnostic := []
  failures : List RuleFailure := []
  /-- Number of units looked at, as a machine word. -/
  unitsChecked : Nat := 0
  deriving DecidableEq, Repr, Inhabited

namespace LintResult

/-- Number of diagnostics of the given `severity`. -/
def count (r : LintResult) (severity : Severity) : Nat :=
  r.diagnostics.countP (·.severity = severity)

/-- Whether a diagnostic is an error. -/
def hasErrors (r : LintResult) : Bool := r.diagnostics.any (·.severity = .error)

/-- Whether a rule could not finish. -/
def hasFailures (r : LintResult) : Bool := !r.failures.isEmpty

/-- Whether a diagnostic is at least as grave as `threshold`. -/
def reaches (r : LintResult) (threshold : Severity) : Bool :=
  r.diagnostics.any (·.severity.atLeast threshold)

/-- The counts of `r` in one sentence. -/
def summary (r : LintResult) : String :=
  s!"Found {r.count .error} error(s), {r.count .warning} warning(s), {r.count .info} info(s) "
    ++ s!"in {r.unitsChecked} unit(s)"
    ++ if r.hasFailures then s!"; {r.failures.length} internal failure(s)" else ""

/-- Adds what another run, `other`, found behind what `r` did. -/
def append (r other : LintResult) : LintResult where
  diagnostics := r.diagnostics ++ other.diagnostics
  failures := r.failures ++ other.failures
  unitsChecked := (r.unitsChecked + other.unitsChecked) % (Decode.maxWord + 1)

instance : Append LintResult := ⟨append⟩

end LintResult

/-! ## JSON -/

namespace Location

/-- The location `l` as an object. -/
def toJson (l : Location) : Json := .ofMembers
  [("file", .ofString l.file), ("line", .ofNat l.line), ("column", .ofNat l.column),
   ("offset", .ofNat l.offset), ("length", .ofNat l.length)]

/-- Reads a location. -/
def decode : Decoder Location := fun levels v => do
  let fields ← Decode.record ["file", "line", "column", "offset", "length"] levels v
  let file ← fields.required "file" Decode.string
  let line ← fields.required "line" (Decode.nat Decode.maxWord)
  let column ← fields.required "column" (Decode.nat Decode.maxWord)
  let offset ← fields.required "offset" (Decode.nat Decode.maxWord)
  let length ← fields.required "length" (Decode.nat Decode.maxWord)
  some { file, line, column, offset, length }

end Location

/-- Reads the place of a node. -/
def NodeId.decode : Decoder NodeId := fun levels v =>
  (Decode.nat Decode.maxIndex levels v).map NodeId.mk

namespace Diagnostic

/-- The diagnostic `d` as an object; a help that is absent and a fix without edits are left out. -/
def toJson (d : Diagnostic) : Json := .ofMembers <|
  [("code", .ofString d.code), ("rule", .ofString d.rule),
   ("severity", .ofString d.severity.name), ("anchor", .ofNat d.anchor.index),
   ("location", d.location.toJson), ("message", .ofString d.message)]
  ++ (match d.help with
    | some help => [("help", .ofString help)]
    | none => [])
  ++ (if d.fix.isEmpty then [] else [("fix", d.fix.toJson)])

/-- Reads a diagnostic. -/
def decode : Decoder Diagnostic := fun levels v => do
  let fields ← Decode.record
    ["code", "rule", "severity", "anchor", "location", "message", "help", "fix"] levels v
  let code ← fields.required "code" Decode.string
  let rule ← fields.required "rule" Decode.string
  let severity ← fields.required "severity" (Decode.choice Severity.byName)
  let anchor ← fields.required "anchor" NodeId.decode
  let location ← fields.required "location" Location.decode
  let message ← fields.required "message" Decode.string
  let help ← fields.optional "help" Decode.string
  let fix ← fields.withDefault "fix" {} Fix.decode
  some { code, rule, severity, anchor, location, message, help, fix }

end Diagnostic

namespace FailureReason

/-- A reason as an object that names its kind. -/
def toJson : FailureReason → Json
  | invariant detail => .ofMembers [("kind", .ofString "invariant"), ("detail", .ofString detail)]
  | breakdown detail => .ofMembers [("kind", .ofString "panic"), ("detail", .ofString detail)]

/-- Reads a reason. -/
def decode : Decoder FailureReason := fun levels v => do
  let fields ← Decode.record ["kind", "detail"] levels v
  let make ← fields.required "kind"
    (Decode.choice [("invariant", invariant), ("panic", breakdown)])
  let detail ← fields.required "detail" Decode.string
  some (make detail)

end FailureReason

namespace RuleFailure

/-- The failure `f` as an object. -/
def toJson (f : RuleFailure) : Json := .ofMembers
  [("rule", .ofString f.rule), ("node", .ofNat f.node.index), ("location", f.location.toJson),
   ("reason", f.reason.toJson)]

/-- Reads a failure. -/
def decode : Decoder RuleFailure := fun levels v => do
  let fields ← Decode.record ["rule", "node", "location", "reason"] levels v
  let rule ← fields.required "rule" Decode.string
  let node ← fields.required "node" NodeId.decode
  let location ← fields.required "location" Location.decode
  let reason ← fields.required "reason" FailureReason.decode
  some { rule, node, location, reason }

end RuleFailure

namespace LintResult

/-- The result `r` as an object; an empty list of failures is left out. -/
def toJson (r : LintResult) : Json := .ofMembers <|
  [("diagnostics", .array (r.diagnostics.map Diagnostic.toJson))]
  ++ (if r.failures.isEmpty then []
    else [("failures", .array (r.failures.map RuleFailure.toJson))])
  ++ [("units_checked", .ofNat r.unitsChecked)]

/-- Reads a result. -/
def decode : Decoder LintResult := fun levels v => do
  let fields ← Decode.record ["diagnostics", "failures", "units_checked"] levels v
  let diagnostics ← fields.required "diagnostics" (Decode.list Diagnostic.decode)
  let failures ← fields.withDefault "failures" [] (Decode.list RuleFailure.decode)
  let unitsChecked ← fields.required "units_checked" (Decode.nat Decode.maxWord)
  some { diagnostics, failures, unitsChecked }

/-- Reads a result from `text`. -/
def parse? (text : String) : Option LintResult := Decode.text? decode text

end LintResult

end TreeLint
