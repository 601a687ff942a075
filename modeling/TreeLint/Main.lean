import TreeLint.Command.Run

/-!
# The program on a real machine

The files that a run can depend on are read first; `Command.run` then says what the run leaves
behind, and the files that it changed are written.
-/

namespace TreeLint.Program

/-- The names of the environment on which a run depends. -/
def environmentNames : List String :=
  ["HOME", "SIFT_CONFIG", "SIFT_CONFIG_DIR", "XDG_CONFIG_HOME"]

/-- What is printed on request, and for a command line that is not understood. -/
def usage : String := LintResult.unlines
  ["Usage: sift [OPTIONS] <COMMAND>",
   "",
   "Commands:",
   "  check [PATH]  Check the unit documents below a folder",
   "                  -f, --format <text|json|compact|rich>   --rules <KEYS>",
   "                  -e, --exclude <PATTERN>   --fix   --dry-run",
   "  list-rules    List the rules",
   "  init          Write a configuration file   --force",
   "",
   "Options:",
   "  -v, --verbose   -c, --config <FILE>   -h, --help   -V, --version"]

/-- The entry of a file, unless there is none or it cannot be read. -/
def readEntry (path : String) : IO (List (Place × DiskEntry)) := do
  try
    let content ← IO.FS.readBinFile path
    let place := Path.parts (← IO.FS.realPath path).toString
    return [(place, .file content)]
  catch _ => return []

/-- The entries of a folder and all that lies below it. Links are not followed. -/
partial def readFolder (path : String) : IO (List (Place × DiskEntry)) := do
  try
    let here ← IO.FS.realPath path
    let mut entries := #[(Path.parts here.toString, DiskEntry.folder)]
    for item in ← here.readDir do
      let below ← match (← item.path.symlinkMetadata).type with
        | .dir => readFolder item.path.toString
        | .file => readEntry item.path.toString
        | _ => pure []
      entries := entries ++ below.toArray
    return entries.toList
  catch _ => readEntry path

/-- The file that holds the text of a document, if the document does not. -/
def sourceOf? (place : Place) : DiskEntry → Option String
  | .folder => none
  | .file content => do
    let doc ← UnitDocument.parse? (← String.fromUTF8? content)
    let path ← if doc.source.isSome then none else doc.sourcePath
    some (Path.join (Path.absolute place.dropLast) path)

/-- The machine as far as a run can depend on it: the folders given, the files above them that
adjust a check, and the texts that documents name. -/
def readMachine (folders : List String) (named : Option String) : IO Machine := do
  let environment ← environmentNames.filterMapM fun name =>
    return (← IO.getEnv name).map fun value => (name, value)
  let cwd := Path.parts (← IO.currentDir).toString
  let entries := (cwd, .folder) :: (← folders.flatMapM readFolder)
  let m : Machine := { disk := ⟨entries⟩, cwd, environment }
  let above := folders.flatMap m.foldersAbove
  let ignoring := above.flatMap fun folder =>
    [".ignore", ".gitignore", ".git/info/exclude"].map (Path.join folder)
  let settings := folders.flatMap m.configCandidates ++ named.toList
    ++ (Command.ownIgnorePath? m).toList
  let sources := entries.filterMap fun (place, entry) => sourceOf? place entry
  let more ← (ignoring ++ settings ++ sources).flatMapM readEntry
  let added := more.filter fun (place, _) => !entries.any fun (other, _) => other == place
  return { m with disk := ⟨entries ++ added.eraseDupsBy fun a b => a.1 == b.1⟩ }

/-- Does on the machine what a run of the program does. -/
def run (args : List String) (folders : List String) (named : Option String) : IO UInt32 := do
  let machine ← readMachine folders named
  let outcome := Command.run machine args
  for (place, content) in machine.disk.changes outcome.disk do
    IO.FS.writeBinFile (Path.absolute place) content
  IO.print outcome.output
  if let some error := outcome.error then
    IO.eprintln s!"Error: {error.message}"
  return outcome.code.toUInt32

end TreeLint.Program

open TreeLint TreeLint.Program in
/-- Reads the command line and runs the program. -/
def main (args : List String) : IO UInt32 := do
  let environment ← environmentNames.filterMapM fun name =>
    return (← IO.getEnv name).map fun value => (name, value)
  match Command.Request.ofArguments args environment with
  | .ok (.check options) => run args [options.path] options.config
  | .ok (.init _) => run args [Command.newConfigPath] none
  | .ok .listRules | .error .version => run args [] none
  | .error .help => IO.print usage; return 0
  | .error .mistake => IO.eprint usage; return 2
