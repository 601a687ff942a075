import TreeLint.Command.Request
import TreeLint.Config.Read
import TreeLint.Disk

/-!
# Finding the configuration

A check uses the configuration file that the user names. If none is named it uses the nearest one
in the checked folder and those above it, then the user's own, and then the defaults.
-/

namespace TreeLint

/-- All that a run of the program depends on, its arguments apart. -/
structure Machine where
  disk : Disk := {}
  /-- The current folder. -/
  cwd : Place := []
  environment : Environment := []
  deriving Inhabited

namespace Machine

/-- The file names of a project's configuration. In one folder the first comes first. -/
def projectConfigNames : List String := ["sift.toml", ".sift.toml"]

/-- The file name of a user's own configuration. -/
def ownConfigName : String := "config.toml"

/-- The folder `checked` and the folders above it; as far as the text of the path tells, if there is
no such folder. -/
def foldersAbove (m : Machine) (checked : String) : List String :=
  match (m.disk.resolve? m.cwd checked).filter m.disk.contains with
  | some place => Path.ancestors (Path.absolute place)
  | none => Path.ancestors checked

/-- The folder of the user's own configuration, as the environment of `m` gives it. -/
def ownConfigFolder? (m : Machine) : Option String :=
  (m.environment.lookup "SIFT_CONFIG_DIR").or
    ((m.environment.lookup "HOME").map fun home => Path.join home ".sift")

/-- The files in which a configuration for `checked` is looked for, the first that exists to be
used. -/
def configCandidates (m : Machine) (checked : String) : List String :=
  (m.foldersAbove checked).flatMap (fun folder => projectConfigNames.map (Path.join folder))
    ++ (m.ownConfigFolder?.map fun folder => Path.join folder ownConfigName).toList

/-- The configuration file of a check: the one `named`, or else the first of `configCandidates` that
is a file. -/
def configFile? (m : Machine) (checked : String) (named : Option String) : Option String :=
  named.or ((m.configCandidates checked).find? (m.disk.isFileAt m.cwd))

/-- The configuration of a check, read from `configFile?`; the path of that file if it cannot be
read. -/
def loadConfig (m : Machine) (checked : String) (named : Option String) : Except String Config :=
  match m.configFile? checked named with
  | none => .ok {}
  | some path =>
    match (m.disk.readText? m.cwd path).bind Config.parse? with
    | some config => .ok config
    | none => .error path

end Machine

end TreeLint
