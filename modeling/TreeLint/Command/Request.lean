import TreeLint.Command.Switch

/-!
# Requests

What a user asks the program to do, as `Request.ofArguments` reads it from a command line and the
environment.
-/

namespace TreeLint

/-- How results are written. -/
inductive OutputFormat where
  /-- Paragraphs in colour. -/
  | text
  /-- One JSON document. -/
  | json
  /-- One line for each finding. -/
  | compact
  /-- Paragraphs without colour. -/
  | rich
  deriving DecidableEq, Repr, Inhabited

/-- The format with the given `name`. -/
def OutputFormat.ofName? (name : String) : Option OutputFormat :=
  [("text", text), ("json", json), ("compact", compact), ("rich", rich)].lookup name

/-- What a check does with the fixes it finds. -/
inductive FixMode where
  /-- Nothing. -/
  | off
  /-- Shows the corrected texts. -/
  | preview
  /-- Writes the corrected texts to their files. -/
  | write
  deriving DecidableEq, Repr, Inhabited

/-- Names and values of the environment of a program. -/
abbrev Environment := List (String × String)

namespace Command

/-- What a check is asked to do. -/
structure CheckOptions where
  /-- The folder in which documents are looked for. -/
  path : String := "."
  format : OutputFormat := .text
  /-- Keys of the rules to be asked; all rules if none are given. -/
  keys : Option (List String) := none
  /-- Patterns of documents to leave out. -/
  exclude : List String := []
  fixMode : FixMode := .off
  /-- The configuration file. -/
  config : Option String := none
  deriving DecidableEq, Repr, Inhabited

/-- What the program is asked to do. -/
inductive Request where
  | check (options : CheckOptions)
  /-- Lists the rules. -/
  | listRules
  /-- Writes a configuration file, also over an old one when forced. -/
  | init (force : Bool)
  deriving DecidableEq, Repr, Inhabited

/-- The switches known everywhere. More talk on request changes no result. -/
def commonSwitches : List Switch :=
  [⟨"verbose", some 'v', .flag⟩, ⟨"config", some 'c', .value (!·.isEmpty)⟩,
   ⟨"help", some 'h', .halt .help⟩]

/-- The command line up to the name of a command. -/
def outerShape : Shape where
  switches := ⟨"version", some 'V', .halt .version⟩ :: commonSwitches
  subcommands := ["check", "list-rules", "init", "help"]

/-- The arguments of `check`. -/
def checkShape : Shape where
  switches := commonSwitches ++
    [⟨"format", some 'f', .value fun name => (OutputFormat.ofName? name).isSome⟩,
     ⟨"rules", none, .value fun _ => true⟩, ⟨"exclude", some 'e', .values⟩,
     ⟨"fix", none, .flag⟩, ⟨"dry-run", none, .flag⟩]
  maxOperands := 1

/-- The arguments of `list-rules`. -/
def listShape : Shape where
  switches := commonSwitches

/-- The arguments of `init`. -/
def initShape : Shape where
  switches := ⟨"force", none, .flag⟩ :: commonSwitches

/-- The configuration file named on the command line, behind the command (`inner`) rather than
before it (`outer`), or by `env`. The environment is looked at unless both places name a file, and
must not name an empty path. -/
def configPath (outer inner : Reading) (env : Environment) : Except Halt (Option String) :=
  let named := env.lookup "SIFT_CONFIG"
  if named = some "" && !(outer.has "config" && inner.has "config") then .error .mistake
  else .ok ((inner.value? "config").or ((outer.value? "config").or named))

/-- The keys in the list `keys` with commas. -/
def splitKeys (keys : String) : List String :=
  (Text.splitOn ',' keys.toList).map fun key => String.ofList (Text.trim key)

/-- The request for a check that `r` makes. A preview is one of fixes, so `dry-run` must stand
beside `fix`. -/
def checkRequest (r : Reading) (config : Option String) : Except Halt Request :=
  if r.has "dry-run" && !r.has "fix" then .error .mistake
  else .ok <| .check
    { path := r.operands.head?.getD "."
      format := ((r.value? "format").bind OutputFormat.ofName?).getD .text
      keys := (r.value? "rules").map splitKeys
      exclude := r.values "exclude"
      fixMode := if r.has "dry-run" then .preview else if r.has "fix" then .write else .off
      config }

/-- What follows the word `help`: nothing, or one command. -/
def helpHalt : List String → Halt
  | [] => .help
  | [command] => if outerShape.subcommands.contains command then .help else .mistake
  | _ => .mistake

/-- The request of a command line with the arguments `args`. -/
def Request.ofArguments (args : List String) (env : Environment) : Except Halt Request := do
  let (outer, rest) ← Reading.all outerShape {} args
  let inside (shape : Shape) (args : List String) (request : Reading → Option String →
      Except Halt Request) : Except Halt Request := do
    let (inner, _) ← Reading.all shape {} args
    request inner (← configPath outer inner env)
  match rest with
  | some ("check", args) => inside checkShape args checkRequest
  | some ("list-rules", args) => inside listShape args fun _ _ => .ok .listRules
  | some ("init", args) => inside initShape args fun r _ => .ok (.init (r.has "force"))
  | some ("help", args) => .error (helpHalt args)
  | _ => .error .mistake

end Command

end TreeLint
