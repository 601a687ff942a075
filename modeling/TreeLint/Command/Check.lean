import TreeLint.Analysis.Analyzer
import TreeLint.Command.ConfigFile
import TreeLint.Command.Correction
import TreeLint.Command.Output
import TreeLint.Rule.Preset

/-!
# Checking a folder

A check loads the configuration, analyses the documents, writes the result, and then corrects the
units. It fails when a rule broke down or a diagnostic that is grave enough has not been fixed.
-/

namespace TreeLint.Command

/-- What a run leaves behind. -/
structure Outcome extends Effects where
  /-- What is written as an error. -/
  error : Option CommandError := none
  /-- Zero when all is well. -/
  code : Nat := 0
  deriving Inhabited

/-- A run that ends with `error`, after the effects `e`. -/
def Outcome.failed (e : Effects) (error : CommandError) : Outcome := ⟨e, some error, 1⟩

/-- The rules among `rules` that answer to one of some keys. -/
def chooseRules (keys : Option (List String)) (rules : List Rule) : List Rule :=
  match keys with
  | none => rules
  | some keys => rules.filter fun rule => keys.any rule.answersTo

/-- The analyser of a check with the options `o`: the configuration is found, and `chooseRules`
picks the rules. -/
def analyzerFor (m : Machine) (o : CheckOptions) : Except CommandError Analyzer :=
  match m.loadConfig o.path o.config with
  | .error path => .error (.badConfig path)
  | .ok config =>
    let rules := chooseRules o.keys ((Preset.ofConfig config).configuredRules config)
    match AnalyzerOptions.build { config, rules, root := some o.path, exclude := o.exclude } with
    | .ok analyzer => .ok analyzer
    | .error _ => .error .badAnalyzer

/-- The path of the user's own ignore file, as the environment of `m` gives it. -/
def ownIgnorePath? (m : Machine) : Option String :=
  (((m.environment.lookup "XDG_CONFIG_HOME").filter (!·.isEmpty)).or
    ((m.environment.lookup "HOME").map fun home => Path.join home ".config")).map
      fun folder => Path.join folder "git/ignore"

/-- The ignore file at `ownIgnorePath?`, an empty one if there is none. -/
def ownIgnoreFile (m : Machine) : IgnoreFile :=
  let place := (ownIgnorePath? m).bind (m.disk.resolve? m.cwd)
  ((place.bind m.disk.file?).map IgnoreFile.ofBytes).getD {}

/-- Whether a run fails over its `reports`: a rule broke down, or a diagnostic of severity
`threshold` or graver remains. -/
def isFailure (reports : List UnitReport) (mode : FixMode) (threshold : Severity) : Bool :=
  reports.any fun r => !r.failures.isEmpty || 0 < r.remaining mode threshold

/-- Writes the result of an analysis that ended with `reports`, corrects the units, and decides on
the exit code. -/
def settle (m : Machine) (o : CheckOptions) (threshold : Severity) (reports : List UnitReport) :
    Outcome :=
  let start : Effects := ⟨m.disk, (Analyzer.result reports).render o.format⟩
  match correctAll m.cwd o.fixMode start reports with
  | (e, some error) => .failed e error
  | (e, none) => ⟨e, none, if isFailure reports o.fixMode threshold then 1 else 0⟩

/-- Runs a check with the options `o` on the machine `m`. -/
def check (m : Machine) (o : CheckOptions) : Outcome :=
  match analyzerFor m o with
  | .error error => .failed ⟨m.disk, ""⟩ error
  | .ok analyzer =>
    match analyzer.reports m.disk m.cwd (ownIgnoreFile m) with
    | .error _ => .failed ⟨m.disk, ""⟩ .analysisFailed
    | .ok reports => settle m o analyzer.config.threshold reports

end TreeLint.Command
