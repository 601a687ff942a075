import TreeLint.Command.Check
import TreeLint.Command.RuleTable

/-!
# Running the program

`Command.run` is the whole program as a function from a command line and a machine to what the run
leaves behind.
-/

namespace TreeLint.Command

/-- The path of a new configuration file. -/
def newConfigPath : String := "./sift.toml"

/-- A configuration file to begin with. -/
def startingConfig : String := LintResult.unlines
  ["# sift configuration",
   "",
   "# Rule preset: \"recommended\" (default), \"strict\" or \"minimal\"",
   "preset = \"recommended\"",
   "",
   "# Lowest severity that fails the run",
   "fail_on = \"error\"",
   "",
   "[analyzer]",
   "# Glob patterns selecting unit documents",
   "include = [\"**/*.sift.json\"]",
   "",
   "# Glob patterns to exclude from analysis",
   "exclude = [",
   "    \"**/target/**\",",
   "    \"**/build/**\",",
   "]",
   "",
   "# Respect .gitignore files",
   "respect_gitignore = true",
   "",
   "# Worker threads (default: one per CPU)",
   "# parallelism = 4",
   "",
   "# Abort when a unit document cannot be loaded",
   "fail_on_unit_error = false",
   "",
   "# Rule configurations",
   "# Each rule can be enabled/disabled and have its severity overridden",
   "",
   "[rules.return-value-ignored]",
   "enabled = true",
   "# severity = \"warning\"",
   "types = [",
   "    \"java.lang.String\",",
   "    \"java.math.BigInteger\",",
   "    \"java.math.BigDecimal\",",
   "]",
   "self_keyword = \"this\""]

/-- What is said after a configuration file was written. -/
def nextSteps : String := LintResult.unlines
  ["Created " ++ newConfigPath,
   "",
   "Next steps:",
   "  1. Edit sift.toml to configure rules",
   "  2. Run: sift check"]

/-- Writes `startingConfig` to a file in the current folder, over one that is there only when
`force` is set. -/
def init (m : Machine) (force : Bool) : Outcome :=
  let start : Effects := ⟨m.disk, ""⟩
  let found := ((m.disk.resolve? m.cwd newConfigPath).map m.disk.contains).getD false
  if found && !force then .failed start (.configExists newConfigPath)
  else
    match m.disk.write? m.cwd newConfigPath startingConfig with
    | some disk => { disk, output := nextSteps }
    | none => .failed start .isFolder

/-- Does what the `Request` asks for. -/
def perform (m : Machine) : Request → Outcome
  | .check options => check m options
  | .listRules => { disk := m.disk, output := ruleTable }
  | .init force => init m force

/-- Stops before any work, with the exit code that the `Halt` calls for. The help text is left to
the caller. -/
def stop (m : Machine) : Halt → Outcome
  | .mistake => { disk := m.disk, code := 2 }
  | .help => { disk := m.disk }
  | .version => { disk := m.disk, output := "sift 0.3.0\n" }

/-- Runs the program with the arguments `args` on the machine `m`. -/
def run (m : Machine) (args : List String) : Outcome :=
  match Request.ofArguments args m.environment with
  | .ok request => perform m request
  | .error halt => stop m halt

end TreeLint.Command
