import TreeLint.Diagnostic.Severity
import TreeLint.Edit.Fix
import TreeLint.Tree.Basic

/-!
# Diagnostics

A diagnostic is one finding about a source text: where it is, what is wrong, and the edits that
correct it. When a rule cannot finish looking at a node, that is no finding about the text but a
`RuleFailure` beside the findings.
-/

namespace TreeLint

/-- A place in a source file. -/
structure Location where
  file : String
  /-- Counted from one. -/
  line : Nat
  /-- Counted from one, in bytes. -/
  column : Nat
  offset : Nat
  length : Nat
  deriving DecidableEq, Repr, Inhabited

/-- The place that `span` covers in the source of `tree`. -/
def Location.ofSpan (tree : Tree) (span : Span) : Location :=
  let (line, column) := tree.lineColumn span.start
  { file := tree.path, line, column, offset := span.start, length := span.length }

/-- The file, the line and the column. -/
instance : ToString Location := ⟨fun l => s!"{l.file}:{l.line}:{l.column}"⟩

/-- One finding. -/
structure Diagnostic where
  /-- The code of the rule. -/
  code : String
  /-- The name of the rule. -/
  rule : String
  severity : Severity
  /-- The node at fault. -/
  anchor : NodeId
  location : Location
  message : String
  /-- What the fix does, in a few words. -/
  help : Option String := none
  fix : Fix := {}
  deriving DecidableEq, Repr, Inhabited

namespace Diagnostic

/-- The diagnostic `d` on one line. -/
def line (d : Diagnostic) : String := s!"{d.location}: {d.severity} [{d.code}] {d.message}"

/-- The diagnostic on several lines, the severity shown as `mark` gives it. -/
def paragraph (mark : Severity → String) (d : Diagnostic) : String :=
  s!"{d.code} {d.rule} at {d.location}\n" ++ s!"  {mark d.severity}: {d.message}\n"
    ++ match d.help with
      | some help => s!"  = help: {help}\n"
      | none => ""

/-- The diagnostic `d` on several lines without colour. -/
def format (d : Diagnostic) : String := d.paragraph Severity.name

end Diagnostic

/-- A diagnostic as it is shown over an excerpt of the source: a heading, the help, and the places
to be underlined, each with its offset, its length and a label. -/
structure Excerpt where
  heading : String
  help : Option String
  labels : List (Nat × Nat × String)
  deriving DecidableEq, Repr

/-- The excerpt that shows `d`: the place underlined is that of `d.location`, with the rule as its
label. -/
def Diagnostic.excerpt (d : Diagnostic) : Excerpt :=
  ⟨s!"[{d.code}] {d.message}", d.help, [(d.location.offset, d.location.length, d.rule)]⟩

/-- Why a rule could not finish. -/
inductive FailureReason where
  /-- The rule met a tree that it assumes cannot exist. -/
  | invariant (detail : String)
  /-- The rule broke down. -/
  | breakdown (detail : String)
  deriving DecidableEq, Repr, Inhabited

namespace FailureReason

/-- The text shown to a user. -/
def message : FailureReason → String
  | invariant detail => s!"invariant violated: {detail}"
  | breakdown detail => s!"rule panicked: {detail}"

end FailureReason

/-- A rule that could not finish at a node. -/
structure RuleFailure where
  /-- The name of the rule. -/
  rule : String
  node : NodeId
  location : Location
  reason : FailureReason
  deriving DecidableEq, Repr, Inhabited

namespace RuleFailure

/-- The failure `f` on one line. -/
def line (f : RuleFailure) : String :=
  s!"{f.location}: internal failure in {f.rule}: {f.reason.message}"

end RuleFailure

end TreeLint
