import TreeLint.Analysis.Report
import TreeLint.Command.Request
import TreeLint.Edit.Buffer

/-!
# Correcting units

The fixes of one unit are merged in the order of its diagnostics. The corrected text is written to
the file that holds the text of the unit, or shown; a text that its document holds is not written.

- `UnitReport.correction` decides what is done, by the report alone.
- `correctAll` does it for all units in order, and stops at the first that fails.
- `UnitReport.remaining` counts the diagnostics that are not fixed.
-/

namespace TreeLint

namespace Command

/-- Why a run ends early. -/
inductive CommandError where
  /-- The configuration file cannot be read. -/
  | badConfig (path : String)
  /-- A glob pattern cannot be read. -/
  | badAnalyzer
  /-- The folder cannot be walked, or a document in it cannot be loaded. -/
  | analysisFailed
  /-- The fixes of a unit do not fit its text. -/
  | badFixes (path : String)
  /-- A corrected text cannot be written. -/
  | unwritable (path : String)
  /-- A new configuration file would replace an old one. -/
  | configExists (path : String)
  /-- A folder stands where a file is to be written. -/
  | isFolder
  deriving DecidableEq, Repr

/-- The text shown to a user. -/
def CommandError.message : CommandError → String
  | badConfig path => s!"Failed to load config: {path}"
  | badAnalyzer => "Failed to build analyzer"
  | analysisFailed => "Analysis failed"
  | badFixes path => s!"Failed to apply fixes to {path}"
  | unwritable path => s!"Failed to write {path}"
  | configExists path =>
    s!"Configuration file already exists at {path}. Use --force to overwrite."
  | isFolder => "Is a directory (os error 21)"

end Command

/-- What is done about the fixes of one unit. -/
inductive Correction where
  | nothing
  /-- The corrected text is shown. -/
  | shown (text : String)
  /-- The corrected text is written to a file. -/
  | written (file text : String)
  deriving DecidableEq, Repr

/-- Whether a corrected text is written. -/
def Correction.isWritten : Correction → Bool
  | written _ _ => true
  | _ => false

namespace UnitReport

open Command

/-- The fixes of all diagnostics of `r` merged by `EditBuffer.offerAll`, and which of them were
accepted. -/
def merged (r : UnitReport) : EditBuffer × List Bool :=
  EditBuffer.offerAll {} (r.diagnostics.map Diagnostic.fix)

/-- What is done about the fixes of the unit of `r`, by `mode`. -/
def correction (r : UnitReport) (mode : FixMode) : Except CommandError Correction :=
  let buffer := r.merged.1
  if mode = .off || buffer.isEmpty then .ok .nothing
  else
    match buffer.apply r.unit.tree.source, mode, r.unit.sourceFile with
    | .error _, _, _ => .error (.badFixes r.unit.tree.path)
    | .ok text, .preview, _ => .ok (.shown text)
    | .ok text, _, some file => .ok (.written file text)
    | .ok _, _, none => .ok .nothing

/-- The diagnostics of `r`, each with whether its fix was accepted and changes anything. -/
def accepted (r : UnitReport) : List (Diagnostic × Bool) :=
  r.diagnostics.zipWith (fun d taken => (d, taken && !d.fix.isEmpty)) r.merged.2

/-- The diagnostics of `r` that are not fixed: all of them unless a corrected text is written. -/
def unfixed (r : UnitReport) (mode : FixMode) : List Diagnostic :=
  match r.correction mode with
  | .ok (.written _ _) => (r.accepted.filter fun (_, fixed) => !fixed).map Prod.fst
  | _ => r.diagnostics

/-- Number of diagnostics that are not fixed and at least as grave as `threshold`. -/
def remaining (r : UnitReport) (mode : FixMode) (threshold : Severity) : Nat :=
  (r.unfixed mode).countP (·.severity.atLeast threshold)

end UnitReport

namespace Command

/-- What a run has done so far. -/
structure Effects where
  disk : Disk
  /-- The text on standard output. -/
  output : String := ""
  deriving Inhabited

/-- Does what `correction` says about the fixes of one unit, after the effects `e`. -/
def Effects.correct (e : Effects) (cwd : Place) (mode : FixMode) (r : UnitReport) :
    Except CommandError Effects :=
  match r.correction mode with
  | .error err => .error err
  | .ok .nothing => .ok e
  | .ok (.shown text) =>
    .ok { e with output := e.output ++ s!"--- {r.unit.tree.path} (fixed)\n" ++ text }
  | .ok (.written file text) =>
    match e.disk.write? cwd file text with
    | some disk => .ok { e with disk }
    | none => .error (.unwritable file)

/-- Does what `Effects.correct` does for some units, one after the other, up to the first that
fails. -/
def correctAll (cwd : Place) (mode : FixMode) (e : Effects) :
    List UnitReport → Effects × Option CommandError
  | [] => (e, none)
  | r :: rest =>
    match e.correct cwd mode r with
    | .ok next => correctAll cwd mode next rest
    | .error err => (e, some err)

end Command

end TreeLint
