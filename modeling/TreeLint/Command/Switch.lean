import TreeLint.Text.Search

/-!
# Reading command lines

A command line is read from left to right against the switches that a command knows.

- A switch is two dashes and its name, or a dash and its letter. Letters can be joined. A value is
  attached to its switch, or is the next argument unless that begins with a dash.
- Behind two dashes alone there are operands only.
- `Reading.next` takes one argument; `Reading.all` takes all of them, up to a subcommand.
-/

namespace TreeLint.Command

/-- Why a command line leads to no work. -/
inductive Halt where
  /-- It is not one that the program understands. -/
  | mistake
  /-- It asks for the help text. -/
  | help
  /-- It asks for the version. -/
  | version
  deriving DecidableEq, Repr

/-- What a switch is for. -/
inductive SwitchUse where
  /-- It stands alone and at most once. -/
  | flag
  /-- It has a value that passes a test, and stands at most once. -/
  | value (accepts : String → Bool)
  /-- It has a value and stands any number of times. -/
  | values
  /-- It ends the reading. -/
  | halt (why : Halt)

/-- A switch that a command knows. -/
structure Switch where
  name : String
  letter : Option Char := none
  use : SwitchUse

/-- Whether a value belongs to the switch `s`. -/
def Switch.takesValue (s : Switch) : Bool :=
  match s.use with
  | .value _ | .values => true
  | .flag | .halt _ => false

/-- What a command knows: its switches, how many operands, and its subcommands. -/
structure Shape where
  switches : List Switch
  maxOperands : Nat := 0
  subcommands : List String := []

/-- What has been read of a command line. -/
structure Reading where
  /-- The names of the switches found, each with its value; that of a flag is empty. -/
  found : List (String × String) := []
  operands : List String := []
  /-- A switch whose value is still to come. -/
  awaiting : Option Switch := none
  /-- Whether the arguments to come are operands. -/
  closed : Bool := false

namespace Reading

/-- Whether the switch called `name` was found. -/
def has (r : Reading) (name : String) : Bool := (r.found.lookup name).isSome

/-- The value of the switch called `name`, which stands at most once. -/
def value? (r : Reading) (name : String) : Option String := r.found.lookup name

/-- The values of the switch called `name`, in order. -/
def values (r : Reading) (name : String) : List String :=
  (r.found.filter (·.1 == name)).map Prod.snd

/-- Takes the switch `s` with its `value`. -/
def take (r : Reading) (s : Switch) (value : String) : Except Halt Reading :=
  let taken := { r with found := r.found ++ [(s.name, value)], awaiting := none }
  match s.use with
  | .halt why => .error why
  | .values => .ok taken
  | .flag => if r.has s.name then .error .mistake else .ok taken
  | .value accepts => if r.has s.name || !accepts value then .error .mistake else .ok taken

/-- Takes the operand `arg`, which must not be empty. -/
def takeOperand (r : Reading) (shape : Shape) (arg : String) : Except Halt Reading :=
  if arg.isEmpty || shape.maxOperands ≤ r.operands.length then .error .mistake
  else .ok { r with operands := r.operands ++ [arg] }

/-- Takes the `body` that follows two dashes: a name, and a value behind an equals sign. -/
def takeName (r : Reading) (shape : Shape) (body : List Char) : Except Halt Reading :=
  let (name, value) := match Text.cutAt? ['='] body with
    | some (name, value) => (name, some value)
    | none => (body, none)
  match shape.switches.find? fun s => s.name.toList == name with
  | none => .error .mistake
  | some s =>
    match s.takesValue, value with
    | true, some value => r.take s (String.ofList value)
    | true, none => .ok { r with awaiting := some s }
    | false, none => r.take s ""
    | false, some _ => .error .mistake

/-- Takes what follows one dash: letters of switches, the last perhaps with its value. -/
def takeLetters (shape : Shape) (r : Reading) : List Char → Except Halt Reading
  | [] => .ok r
  | c :: rest =>
    match shape.switches.find? (·.letter = some c) with
    | none => .error .mistake
    | some s =>
      if s.takesValue then
        match rest with
        | [] => .ok { r with awaiting := some s }
        | '=' :: value => r.take s (String.ofList value)
        | value => r.take s (String.ofList value)
      else
        match r.take s "" with
        | .ok next => takeLetters shape next rest
        | .error why => .error why

/-- Takes the argument `arg` of a command of the given `shape`. -/
def next (shape : Shape) (r : Reading) (arg : String) : Except Halt Reading :=
  if r.closed then r.takeOperand shape arg
  else
    match arg.toList, r.awaiting with
    | '-' :: _ :: _, some _ => .error .mistake
    | ['-', '-'], none => .ok { r with closed := true }
    | '-' :: '-' :: body, none => r.takeName shape body
    | '-' :: c :: rest, none => r.takeLetters shape (c :: rest)
    | _, some s => r.take s arg
    | _, none => r.takeOperand shape arg

/-- Takes the arguments up to a subcommand of `shape`, which comes with the arguments behind it. -/
def all (shape : Shape) (r : Reading) :
    List String → Except Halt (Reading × Option (String × List String))
  | [] => if r.awaiting.isSome then .error .mistake else .ok (r, none)
  | arg :: rest =>
    if !r.closed && r.awaiting.isNone && shape.subcommands.contains arg then
      .ok (r, some (arg, rest))
    else
      match r.next shape arg with
      | .ok r => r.all shape rest
      | .error why => .error why

end Reading

end TreeLint.Command
