import TreeLint.Analysis.Report
import TreeLint.Analysis.Workers
import TreeLint.Glob
import TreeLint.Ignore.Walk

/-!
# Analysing a folder

An analyser looks for unit documents below a folder, loads each, and reports on them in the order
of their paths. What it finds in one document does not depend on the others.

- `AnalyzerOptions.build` makes an analyser from a configuration and what is given beside it.
- `Analyzer.documents` chooses and orders the documents among the files; `Analyzer.reports`
  analyses them, and `Analyzer.analyze` merges the reports.
-/

namespace TreeLint

/-- Why no analysis was made. -/
inductive AnalyzerError where
  /-- A glob pattern cannot be read. -/
  | badPattern
  /-- The folder cannot be walked. -/
  | badFolder
  /-- A document cannot be loaded, and the analyser was told to stop at that. -/
  | badUnit (document : String) (cause : UnitError)
  deriving DecidableEq, Repr

/-- What an analyser is made from. What is given here counts more than the configuration. -/
structure AnalyzerOptions where
  config : Config := {}
  rules : List Rule := []
  root : Option String := none
  /-- Patterns of documents to leave out, beside those of the configuration. -/
  exclude : List String := []
  /-- Patterns of documents; if there are none, those of the configuration count. -/
  patterns : List String := []
  parallelism : Option Nat := none
  failOnUnitError : Option Bool := none
  deriving Inhabited

/-- Looks for unit documents and analyses them. -/
structure Analyzer where
  root : String
  registry : Registry
  exclude : List Glob
  patterns : List Glob
  config : Config
  /-- Number of workers, if it is given. -/
  parallelism : Option Nat
  failOnUnitError : Bool
  deriving Inhabited

/-- The analyser for the options `o`. Rules that `o.config` disables are left out. -/
def AnalyzerOptions.build (o : AnalyzerOptions) : Except AnalyzerError Analyzer :=
  let settings := o.config.analyzer
  let patterns := [o.patterns, settings.patterns, [defaultPattern]].find? (!·.isEmpty)
  match (o.exclude ++ settings.exclude).mapM Glob.ofText?, (patterns.getD []).mapM Glob.ofText? with
  | some exclude, some patterns => .ok
    { root := o.root.getD settings.root
      registry := .ofList (o.rules.filter fun rule => o.config.isEnabled rule.name)
      exclude, patterns
      config := o.config
      parallelism := o.parallelism.or settings.parallelism
      failOnUnitError := o.failOnUnitError.getD settings.failOnUnitError }
  | _, _ => .error .badPattern

namespace Analyzer

/-- The report of `analyzeUnit` on `unit`, with the configuration and the rules of `a`. -/
def report (a : Analyzer) (unit : SourceUnit) : UnitReport := analyzeUnit a.config a.registry unit

/-- Whether `path`, below the folder `a.root`, is that of a document to be analysed: one of the
`patterns` accepts it, and none of `exclude` does. -/
def selects (a : Analyzer) (path : String) : Bool :=
  a.patterns.any (·.accepts path) && !a.exclude.any (·.accepts path)

/-- Of the `files` below the folder, each given by the names that lead to it, the documents that `a`
`selects`, in order. -/
def documents (a : Analyzer) (files : List Place) : List Place :=
  (files.filter fun names => a.selects (Place.relative names)).mergeSort Place.atMost

/-- The path of the file below the folder to which `names` lead. The folder may be a file itself. -/
def pathOf (a : Analyzer) (cwd names : Place) : String :=
  let root := Path.join (Path.absolute cwd) a.root
  if names.isEmpty then root else Path.join root (Place.relative names)

/-- Loads and analyses the document to which `names` lead from the folder of `a`. -/
def load (a : Analyzer) (disk : Disk) (cwd names : Place) : Except AnalyzerError UnitReport :=
  let document := a.pathOf cwd names
  match SourceUnit.load disk cwd document with
  | .ok unit => .ok { a.report unit with document }
  | .error cause => .error (.badUnit document cause)

/-- Whether the path of `r` comes before that of `r'` or is the same. -/
def atMost (r r' : UnitReport) : Bool :=
  Place.atMost (Path.parts r.document) (Path.parts r'.document)

/-- The reports among `loaded`, what became of some documents, in the order of their paths.
Documents that were not loaded are passed over, unless `failOnUnitError` tells the analyser to stop
at the first of them. -/
def gather (a : Analyzer) (loaded : List (Except AnalyzerError UnitReport)) :
    Except AnalyzerError (List UnitReport) :=
  let reports :=
    if a.failOnUnitError then loaded.mapM id else .ok (loaded.filterMap Except.toOption)
  reports.map fun reports => reports.mergeSort atMost

/-- The reports on the documents among `files`, in order; the work is shared out by `pool`. -/
def reportsOn (a : Analyzer) (disk : Disk) (cwd : Place) (files : List Place)
    (pool : WorkerPool Place (Except AnalyzerError UnitReport) := .halving) :
    Except AnalyzerError (List UnitReport) :=
  a.gather (pool.map (a.parallelism.getD 0) (a.load disk cwd) (a.documents files))

/-- The files that a walk from the folder reaches, where the user's ignore file is `own`. -/
def files? (a : Analyzer) (disk : Disk) (cwd : Place) (own : IgnoreFile := {}) :
    Option (List Place) :=
  let walk : WalkSettings := { gitignore := a.config.analyzer.respectGitignore, own, cwd }
  (disk.resolve? cwd a.root).bind (walk.files? disk)

/-- The reports on all documents that are among the `files?` below the folder, in order. -/
def reports (a : Analyzer) (disk : Disk) (cwd : Place) (own : IgnoreFile := {}) :
    Except AnalyzerError (List UnitReport) :=
  match a.files? disk cwd own with
  | some files => a.reportsOn disk cwd files
  | none => .error .badFolder

/-- What an analysis that ended with `reports` found. -/
def result (reports : List UnitReport) : LintResult :=
  reports.foldl (fun total r => total ++ r.result) {}

/-- Adds what `r` says behind `total`, what was found before. -/
def addReport (total : LintResult) (r : UnitReport) : LintResult where
  diagnostics := total.diagnostics ++ r.diagnostics
  failures := total.failures ++ r.failures
  unitsChecked := (total.unitsChecked + 1) % (Decode.maxWord + 1)

/-- Analyses all documents below the folder and adds up their `reports`. -/
def analyze (a : Analyzer) (disk : Disk) (cwd : Place) (own : IgnoreFile := {}) :
    Except AnalyzerError LintResult :=
  (a.reports disk cwd own).map fun reports => reports.foldl addReport {}

end Analyzer

end TreeLint
